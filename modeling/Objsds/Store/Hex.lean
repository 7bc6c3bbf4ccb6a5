import Objsds.Store.Interface

namespace Objsds

def hexValue (c : Char) : Option ℕ := (List.range 16).find? (fun d => Nat.digitChar d = c)

def hexPair (n : ℕ) : List Char := [Nat.digitChar (n / 16),Nat.digitChar (n % 16)]

def hexText (bytes : List UInt8) : List Char := bytes.flatMap (fun byte => hexPair byte.toNat)

theorem hexValue_digitChar : ∀ d < 16, hexValue (Nat.digitChar d) = some d := by
  decide

def hexChars : ℕ → ℕ → List Char
  | 0, _ => []
  | width + 1, n => hexChars width (n / 16) ++ [Nat.digitChar (n % 16)]

def ofHex (cs : List Char) : Option ℕ := cs.foldlM (fun n c => (hexValue c).map (16 * n + ·)) 0

def hyphenate (cs : List Char) : List Char :=
  cs.take 8 ++ '-' :: ((cs.drop 8).take 4 ++ '-' :: ((cs.drop 12).take 4 ++
    '-' :: ((cs.drop 16).take 4 ++ '-' :: cs.drop 20)))

def Uuid.text (id : Uuid) : String := String.ofList (hyphenate (hexChars 32 id.val))

def Uuid.parse (t : String) : Option Uuid :=
  let cs := t.toList.filter (· ≠ '-')
  if hyphenate cs = t.toList then
    (ofHex cs).bind (fun n => if h : n < 2 ^ 128 then some ⟨n,h⟩ else none)
  else none

theorem ofHex_hexChars (width n : ℕ) : ofHex (hexChars width n) = some (n % 16 ^ width) := by
  induction width generalizing n with
  | zero => simp [ofHex,hexChars,Nat.mod_one]
  | succ width ih =>
      have hd := hexValue_digitChar (n % 16) (Nat.mod_lt _ (by decide))
      have hmod : n % 16 ^ (width + 1) = 16 * (n / 16 % 16 ^ width) + n % 16 := by
        rw [Nat.pow_succ',Nat.mod_mul]
        omega
      rw [ofHex,hexChars,List.foldlM_append]
      have ih' : (hexChars width (n / 16)).foldlM (fun n c => (hexValue c).map (16 * n + ·)) 0 =
          some (n / 16 % 16 ^ width) := ih (n / 16)
      rw [ih',hmod]
      simp [hd]

theorem hexChars_ne (width n : ℕ) : ∀ c ∈ hexChars width n, c ≠ '-' := by
  induction width generalizing n with
  | zero => simp [hexChars]
  | succ width ih =>
      intro c hc
      rcases List.mem_append.mp hc with hc | hc
      · exact ih _ c hc
      · rw [List.mem_singleton.mp hc]
        have : ∀ d < 16, Nat.digitChar d ≠ '-' := by decide
        exact this _ (Nat.mod_lt _ (by decide))

theorem filter_hyphenate {cs : List Char} (h : ∀ c ∈ cs, c ≠ '-') :
    (hyphenate cs).filter (· ≠ '-') = cs := by
  have hsub : ∀ xs : List Char, xs.Sublist cs → xs.filter (· ≠ '-') = xs := fun xs hx =>
    List.filter_eq_self.mpr (fun c hc => by simpa using h c (hx.subset hc))
  have hcut : cs.take 8 ++ ((cs.drop 8).take 4 ++ ((cs.drop 12).take 4 ++
      ((cs.drop 16).take 4 ++ cs.drop 20))) = cs := by
    have h₁ := List.take_append_drop 8 cs
    have h₂ := List.take_append_drop 4 (cs.drop 8)
    have h₃ := List.take_append_drop 4 (cs.drop 12)
    have h₄ := List.take_append_drop 4 (cs.drop 16)
    rw [List.drop_drop] at h₂ h₃ h₄
    rw [h₄,h₃,h₂,h₁]
  simp only [hyphenate,List.filter_append,List.filter_cons,ne_eq,not_true_eq_false,decide_false,
    Bool.false_eq_true,if_false]
  have hfilter : ∀ xs : List Char, xs.Sublist cs → xs.filter (fun c => decide (¬ c = '-')) = xs :=
    hsub
  rw [hfilter _ (List.take_sublist ..),
    hfilter _ ((List.take_sublist ..).trans (List.drop_sublist ..)),
    hfilter _ ((List.take_sublist ..).trans (List.drop_sublist ..)),
    hfilter _ ((List.take_sublist ..).trans (List.drop_sublist ..)),
    hfilter _ (List.drop_sublist ..),hcut]

theorem hexPair_injective {a b : UInt8} (h : hexPair a.toNat = hexPair b.toNat) : a = b := by
  have ha := a.toNat_lt
  have hb := b.toNat_lt
  simp only [hexPair,List.cons.injEq,and_true] at h
  have h₁ := congrArg hexValue h.1
  have h₂ := congrArg hexValue h.2
  rw [hexValue_digitChar _ (by omega),hexValue_digitChar _ (by omega)] at h₁
  rw [hexValue_digitChar _ (by omega),hexValue_digitChar _ (by omega)] at h₂
  refine UInt8.toNat_inj.mp ?_
  simp only [Option.some.injEq] at h₁ h₂
  omega

theorem hexText_length (bytes : List UInt8) : (hexText bytes).length = 2 * bytes.length := by
  induction bytes with
  | nil => rfl
  | cons b bytes ih =>
      have hp : (hexPair b.toNat).length = 2 := rfl
      have hc : hexText (b :: bytes) = hexPair b.toNat ++ hexText bytes := rfl
      rw [hc,List.length_append,hp,ih,List.length_cons]
      omega

theorem hexText_injective : Function.Injective hexText := by
  intro xs ys h
  induction xs generalizing ys with
  | nil =>
      have := congrArg List.length h
      rw [hexText_length,hexText_length] at this
      simp only [List.length_nil] at this
      exact (List.length_eq_zero_iff.mp (by omega)).symm
  | cons x xs ih =>
      cases ys with
      | nil =>
          have := congrArg List.length h
          rw [hexText_length,hexText_length] at this
          simp at this
      | cons y ys =>
          simp only [hexText,List.flatMap_cons] at h
          obtain ⟨hp,ht⟩ := List.append_inj h rfl
          rw [hexPair_injective hp,ih ht]

theorem Uuid.parse_text (id : Uuid) : Uuid.parse (Uuid.text id) = some id := by
  have hf := filter_hyphenate (hexChars_ne 32 id.val)
  have hmod : id.val % 16 ^ 32 = id.val := Nat.mod_eq_of_lt (by have := id.isLt; omega)
  simp only [Uuid.parse,Uuid.text,String.toList_ofList,hf,if_true,ofHex_hexChars,hmod,
    Option.bind_some,id.isLt,dif_pos]

theorem Uuid.text_injective : Function.Injective Uuid.text := by
  intro x y h
  have hx := Uuid.parse_text x
  rw [h,Uuid.parse_text y] at hx
  exact (Option.some.inj hx).symm

end Objsds
