import Objsds.Json.Serde
import Objsds.Store.Hex

namespace Objsds

namespace Compact

section Strings

def shortEscape (c : Char) : Option Char :=
  if c = '"' then some '"'
  else if c = '\\' then some '\\'
  else if c = '\x08' then some 'b'
  else if c = '\t' then some 't'
  else if c = '\n' then some 'n'
  else if c = '\x0c' then some 'f'
  else if c = '\r' then some 'r'
  else none

def fromEscape (e : Char) : Option Char :=
  if e = '"' then some '"'
  else if e = '\\' then some '\\'
  else if e = 'b' then some '\x08'
  else if e = 't' then some '\t'
  else if e = 'n' then some '\n'
  else if e = 'f' then some '\x0c'
  else if e = 'r' then some '\r'
  else none

def escape (c : Char) : List Char :=
  match shortEscape c with
  | some e => ['\\',e]
  | none => if c.toNat < 32 then '\\' :: 'u' :: '0' :: '0' :: hexPair c.toNat else [c]

def quote (cs : List Char) : List Char := cs.flatMap escape ++ ['"']

def unquote : List Char → Option (List Char × List Char)
  | [] => none
  | '"' :: rest => some ([],rest)
  | '\\' :: 'u' :: '0' :: '0' :: a :: b :: rest => do
      let high ← hexValue a
      let low ← hexValue b
      let (cs,rest) ← unquote rest
      return (Char.ofNat (16 * high + low) :: cs,rest)
  | '\\' :: e :: rest => do
      let c ← fromEscape e
      let (cs,rest) ← unquote rest
      return (c :: cs,rest)
  | c :: rest => do
      let (cs,rest) ← unquote rest
      return (c :: cs,rest)

theorem fromEscape_shortEscape {c e : Char} (h : shortEscape c = some e) :
    fromEscape e = some c ∧ e ≠ 'u' := by
  unfold shortEscape at h
  repeat' split at h
  all_goals
    first
    | (obtain rfl := Option.some.inj h
       subst_vars
       decide)
    | simp at h

theorem unquote_escape (c : Char) (rest : List Char) :
    unquote (escape c ++ rest) = (unquote rest).map (fun p => (c :: p.1,p.2)) := by
  unfold escape
  cases hs : shortEscape c with
  | some e =>
      obtain ⟨he,hu⟩ := fromEscape_shortEscape hs
      simp only [List.cons_append,List.nil_append]
      rw [unquote]
      · simp only [he]
        cases unquote rest <;> rfl
      · simp [hu]
  | none =>
      have hq : c ≠ '"' ∧ c ≠ '\\' := by
        constructor <;> (rintro rfl; simp [shortEscape] at hs)
      by_cases hlt : c.toNat < 32
      · simp only [hlt,if_true,hexPair,List.cons_append,List.nil_append]
        rw [unquote,hexValue_digitChar _ (by omega),hexValue_digitChar _ (Nat.mod_lt _ (by decide))]
        have hc : Char.ofNat (16 * (c.toNat / 16) + c.toNat % 16) = c := by
          rw [Nat.div_add_mod]
          exact Char.ofNat_toNat c
        simp only [Option.bind_eq_bind,Option.bind_some,hc]
        cases unquote rest <;> rfl
      · simp only [hlt,if_false,List.cons_append,List.nil_append]
        rw [unquote]
        · cases unquote rest <;> rfl
        · simp [hq.1]
        · simp [hq.2]
        · simp [hq.2]

theorem unquote_quote (cs rest : List Char) : unquote (quote cs ++ rest) = some (cs,rest) := by
  induction cs with
  | nil => rfl
  | cons c cs ih =>
      have hq : quote (c :: cs) ++ rest = escape c ++ (quote cs ++ rest) := by
        simp [quote]
      rw [hq,unquote_escape,ih]
      rfl

end Strings

section Numbers

def spanDigits (cs : List Char) : List Char × List Char :=
  (cs.takeWhile Char.isDigit,cs.dropWhile Char.isDigit)

-- A float is written by its bits here; serde_json writes its shortest decimal form.
def numberChars : Number → List Char
  | .posInt n => Nat.toDigits 10 n.toNat
  | .negInt n => '-' :: Nat.toDigits 10 (n.val + 1)
  | .float f => Nat.toDigits 10 f.bits.toNat ++ ['.','0']

def natural (ds : List Char) : Option ℕ :=
  if ds = [] then none else some (Nat.ofDigitChars 10 ds 0)

def unsigned (n : ℕ) : Option Number :=
  if n < 2 ^ 64 then some (.posInt (UInt64.ofNat n)) else none

-- serde_json takes `-0` for a float.
def negative (n : ℕ) : Option Number :=
  if n = 0 then some (.float ⟨(1 : UInt64) <<< 63,by decide⟩)
  else if h : n - 1 < 2 ^ 63 then some (.negInt ⟨n - 1,h⟩) else none

def float (bits : UInt64) : Option Number :=
  if h : (bits >>> 52) &&& 0x7ff ≠ 0x7ff then some (.float ⟨bits,h⟩) else none

def fraction (n : ℕ) : List Char → Option (Number × List Char)
  | '.' :: '0' :: rest => (float (UInt64.ofNat n)).map (·,rest)
  | rest => (unsigned n).map (·,rest)

def readNumber (cs : List Char) : Option (Number × List Char) :=
  if cs.head? = some '-' then
    (natural (spanDigits cs.tail).1).bind (fun n =>
      (negative n).map (·,(spanDigits cs.tail).2))
  else (natural (spanDigits cs).1).bind (fun n => fraction n (spanDigits cs).2)

def Ends (rest : List Char) : Prop := ∀ c ∈ rest.head?, c.isDigit = false ∧ c ≠ '.'

theorem spanDigits_append {ds rest : List Char} (hd : ∀ c ∈ ds, c.isDigit = true)
    (hr : ∀ c ∈ rest.head?, c.isDigit = false) : spanDigits (ds ++ rest) = (ds,rest) := by
  have ht : rest.takeWhile Char.isDigit = [] ∧ rest.dropWhile Char.isDigit = rest := by
    cases rest with
    | nil => exact ⟨rfl,rfl⟩
    | cons c rest =>
        have hc : c.isDigit = false := hr c (by simp)
        simp [hc]
  rw [spanDigits,List.takeWhile_append_of_pos hd,List.dropWhile_append_of_pos hd,ht.1,ht.2,
    List.append_nil]

theorem spanDigits_toDigits (n : ℕ) {rest : List Char}
    (hr : ∀ c ∈ rest.head?, c.isDigit = false) :
    spanDigits (Nat.toDigits 10 n ++ rest) = (Nat.toDigits 10 n,rest) :=
  spanDigits_append (fun _ => Nat.isDigit_of_mem_toDigits (by decide) (by decide)) hr

theorem natural_toDigits (n : ℕ) : natural (Nat.toDigits 10 n) = some n := by
  rw [natural,if_neg Nat.toDigits_ne_nil,Nat.ofDigitChars_ten_toDigits]

theorem toDigits_cons (n : ℕ) : ∃ c cs, Nat.toDigits 10 n = c :: cs ∧ c.isDigit = true := by
  cases h : Nat.toDigits 10 n with
  | nil => exact absurd h Nat.toDigits_ne_nil
  | cons c cs =>
      refine ⟨c,cs,rfl,?_⟩
      exact Nat.isDigit_of_mem_toDigits (by decide) (by decide) (h ▸ List.mem_cons_self ..)

theorem readNumber_digits (n : ℕ) {rest : List Char} (hr : ∀ c ∈ rest.head?, c.isDigit = false) :
    readNumber (Nat.toDigits 10 n ++ rest) = fraction n rest := by
  obtain ⟨c,cs,hcs,hc⟩ := toDigits_cons n
  have hminus : (Nat.toDigits 10 n ++ rest).head? ≠ some '-' := by
    rw [hcs]
    rintro h
    obtain rfl : c = '-' := by simpa using h
    simp at hc
  rw [readNumber,if_neg hminus,spanDigits_toDigits n hr,natural_toDigits,Option.bind_some]

theorem readNumber_numberChars (n : Number) {rest : List Char} (hr : Ends rest) :
    readNumber (numberChars n ++ rest) = some (n,rest) := by
  have hd : ∀ c ∈ rest.head?, c.isDigit = false := fun c hc => (hr c hc).1
  cases n with
  | posInt n =>
      have hu : unsigned n.toNat = some (.posInt n) := by
        rw [unsigned,if_pos n.toNat_lt,UInt64.ofNat_toNat]
      rw [numberChars,readNumber_digits _ hd]
      unfold fraction
      split
      · exact absurd rfl (hr '.' (by simp)).2
      · rw [hu,Option.map_some]
  | negInt n =>
      have hn : negative (n.val + 1) = some (.negInt n) := by
        simp only [negative,Nat.succ_ne_zero,if_false,Nat.add_sub_cancel,n.isLt,dif_pos]
      rw [numberChars,List.cons_append,readNumber,if_pos List.head?_cons,List.tail_cons,
        spanDigits_toDigits _ hd,natural_toDigits,Option.bind_some,hn,Option.map_some]
  | float f =>
      have hf : float f.bits = some (.float f) := by
        rw [float,dif_pos f.finite]
      rw [numberChars,List.append_assoc,readNumber_digits _ (by simp),List.cons_append,
        List.cons_append,List.nil_append,fraction,UInt64.ofNat_toNat,hf,Option.map_some]

theorem numberChars_cons (n : Number) :
    ∃ c cs, numberChars n = c :: cs ∧ (c = '-' ∨ c.isDigit = true) := by
  cases n with
  | posInt n =>
      obtain ⟨c,cs,hcs,hc⟩ := toDigits_cons n.toNat
      exact ⟨c,cs,hcs,.inr hc⟩
  | negInt n => exact ⟨'-',_,rfl,.inl rfl⟩
  | float f =>
      obtain ⟨c,cs,hcs,hc⟩ := toDigits_cons f.bits.toNat
      exact ⟨c,cs ++ ['.','0'],by simp [numberChars,hcs],.inr hc⟩

end Numbers

section Trees

mutual
def chars : Json → List Char
  | .null => ['n','u','l','l']
  | .bool true => ['t','r','u','e']
  | .bool false => ['f','a','l','s','e']
  | .number n => numberChars n
  | .string s => '"' :: quote s.toList
  | .array [] => ['[',']']
  | .array (j :: js) => '[' :: (chars j ++ itemChars js)
  | .object [] => ['\x7b','\x7d']
  | .object ((k,j) :: ms) => '\x7b' :: '"' :: (quote k.toList ++ ':' :: (chars j ++ memberChars ms))

def itemChars : List Json → List Char
  | [] => [']']
  | j :: js => ',' :: (chars j ++ itemChars js)

def memberChars : List (String × Json) → List Char
  | [] => ['\x7d']
  | (k,j) :: ms => ',' :: '"' :: (quote k.toList ++ ':' :: (chars j ++ memberChars ms))
end

def key (cs : List Char) : Option (String × List Char) :=
  match cs with
  | '"' :: rest =>
      match unquote rest with
      | some (k,':' :: rest) => some (String.ofList k,rest)
      | _ => none
  | _ => none

mutual
def value : ℕ → List Char → Option (Json × List Char)
  | 0, _ => none
  | _ + 1, [] => none
  | fuel + 1, c :: rest =>
      if c = 'n' then if rest.take 3 = ['u','l','l'] then some (.null,rest.drop 3) else none
      else if c = 't' then
        if rest.take 3 = ['r','u','e'] then some (.bool true,rest.drop 3) else none
      else if c = 'f' then
        if rest.take 4 = ['a','l','s','e'] then some (.bool false,rest.drop 4) else none
      else if c = '"' then (unquote rest).map (fun p => (.string (String.ofList p.1),p.2))
      else if c = '[' then
        if rest.head? = some ']' then some (.array [],rest.tail)
        else do
          let (j,rest) ← value fuel rest
          let (js,rest) ← items fuel rest
          return (.array (j :: js),rest)
      else if c = '\x7b' then
        if rest.head? = some '\x7d' then some (.object [],rest.tail)
        else do
          let (k,rest) ← key rest
          let (j,rest) ← value fuel rest
          let (ms,rest) ← members fuel rest
          return (.object ((k,j) :: ms),rest)
      else (readNumber (c :: rest)).map (fun p => (.number p.1,p.2))

def items : ℕ → List Char → Option (List Json × List Char)
  | 0, _ => none
  | _ + 1, [] => none
  | fuel + 1, c :: rest =>
      if c = ']' then some ([],rest)
      else if c = ',' then do
        let (j,rest) ← value fuel rest
        let (js,rest) ← items fuel rest
        return (j :: js,rest)
      else none

def members : ℕ → List Char → Option (List (String × Json) × List Char)
  | 0, _ => none
  | _ + 1, [] => none
  | fuel + 1, c :: rest =>
      if c = '\x7d' then some ([],rest)
      else if c = ',' then do
        let (k,rest) ← key rest
        let (j,rest) ← value fuel rest
        let (ms,rest) ← members fuel rest
        return ((k,j) :: ms,rest)
      else none
end

mutual
def cost : Json → ℕ
  | .array [] => 1
  | .array (j :: js) => cost j + itemsCost js + 1
  | .object [] => 1
  | .object ((_,j) :: ms) => cost j + membersCost ms + 1
  | _ => 1

def itemsCost : List Json → ℕ
  | [] => 1
  | j :: js => cost j + itemsCost js + 1

def membersCost : List (String × Json) → ℕ
  | [] => 1
  | (_,j) :: ms => cost j + membersCost ms + 1
end

theorem ends_itemChars (js : List Json) (rest : List Char) : Ends (itemChars js ++ rest) := by
  cases js <;> simp [itemChars,Ends]

theorem ends_memberChars (ms : List (String × Json)) (rest : List Char) :
    Ends (memberChars ms ++ rest) := by
  rcases ms with _ | ⟨⟨k,j⟩,ms⟩ <;> simp [memberChars,Ends]

theorem key_quote (k : String) (rest : List Char) :
    key ('"' :: (quote k.toList ++ ':' :: rest)) = some (k,rest) := by
  simp [key,unquote_quote]

theorem chars_cons (j : Json) : ∃ c cs, chars j = c :: cs ∧ c ≠ ']' := by
  match j with
  | .null | .bool true | .bool false | .string _ | .array [] | .array (_ :: _) | .object []
  | .object (_ :: _) => simp [chars]
  | .number n =>
      obtain ⟨c,cs,hcs,hc⟩ := numberChars_cons n
      refine ⟨c,cs,by rw [chars,hcs],?_⟩
      rintro rfl
      simp at hc

theorem value_number (n : Number) (fuel : ℕ) {rest : List Char} (hr : Ends rest) :
    value (fuel + 1) (numberChars n ++ rest) = some (.number n,rest) := by
  have hread := readNumber_numberChars n hr
  obtain ⟨c,cs,hcs,hc⟩ := numberChars_cons n
  have hne : ∀ d : Char, d ≠ '-' → d.isDigit = false → c ≠ d := by
    rintro d hd hdig rfl
    rcases hc with rfl | hc
    · exact hd rfl
    · simp [hdig] at hc
  rw [hcs,List.cons_append] at hread ⊢
  rw [value,if_neg (hne _ (by decide) (by decide)),if_neg (hne _ (by decide) (by decide)),
    if_neg (hne _ (by decide) (by decide)),if_neg (hne _ (by decide) (by decide)),
    if_neg (hne _ (by decide) (by decide)),if_neg (hne _ (by decide) (by decide)),hread]
  rfl

mutual
theorem value_chars : ∀ (j : Json) (fuel : ℕ) (rest : List Char), cost j ≤ fuel → Ends rest →
    value fuel (chars j ++ rest) = some (j,rest)
  | j, 0, rest, h, _ => by
      match j with
      | .array [] | .array (_ :: _) | .object [] | .object (_ :: _) | .null | .bool _ | .number _
      | .string _ => simp [cost] at h
  | .null, fuel + 1, rest, _, _ => by simp [chars,value]
  | .bool true, fuel + 1, rest, _, _ => by simp [chars,value]
  | .bool false, fuel + 1, rest, _, _ => by simp [chars,value]
  | .number n, fuel + 1, rest, _, hr => value_number n fuel hr
  | .string s, fuel + 1, rest, _, _ => by simp [chars,value,unquote_quote]
  | .array [], fuel + 1, rest, _, _ => by simp [chars,value]
  | .array (j :: js), fuel + 1, rest, h, _ => by
      simp only [cost] at h
      have hj := value_chars j fuel _ (by omega) (ends_itemChars js rest)
      have hjs := items_chars js fuel rest (by omega)
      have hhead : (chars j ++ (itemChars js ++ rest)).head? ≠ some ']' := by
        obtain ⟨c,cs,hcs,hc⟩ := chars_cons j
        simpa [hcs] using hc
      rw [chars,List.cons_append,List.append_assoc,value]
      simp only [Char.reduceEq,if_false,if_true,hhead,hj,hjs,Option.bind_eq_bind,Option.bind_some]
      rfl
  | .object [], fuel + 1, rest, _, _ => by simp [chars,value]
  | .object ((k,j) :: ms), fuel + 1, rest, h, _ => by
      simp only [cost] at h
      have hj := value_chars j fuel _ (by omega) (ends_memberChars ms rest)
      have hms := members_chars ms fuel rest (by omega)
      rw [chars]
      simp only [List.cons_append,List.append_assoc]
      rw [value]
      simp [key_quote,hj,hms]

theorem items_chars : ∀ (js : List Json) (fuel : ℕ) (rest : List Char), itemsCost js ≤ fuel →
    items fuel (itemChars js ++ rest) = some (js,rest)
  | js, 0, rest, h => by cases js <;> simp [itemsCost] at h
  | [], fuel + 1, rest, _ => by simp [itemChars,items]
  | j :: js, fuel + 1, rest, h => by
      simp only [itemsCost] at h
      have hj := value_chars j fuel _ (by omega) (ends_itemChars js rest)
      have hjs := items_chars js fuel rest (by omega)
      rw [itemChars,List.cons_append,List.append_assoc,items]
      simp [hj,hjs]

theorem members_chars : ∀ (ms : List (String × Json)) (fuel : ℕ) (rest : List Char),
    membersCost ms ≤ fuel → members fuel (memberChars ms ++ rest) = some (ms,rest)
  | ms, 0, rest, h => by rcases ms with _ | ⟨⟨k,j⟩,ms⟩ <;> simp [membersCost] at h
  | [], fuel + 1, rest, _ => by simp [memberChars,members]
  | (k,j) :: ms, fuel + 1, rest, h => by
      simp only [membersCost] at h
      have hj := value_chars j fuel _ (by omega) (ends_memberChars ms rest)
      have hms := members_chars ms fuel rest (by omega)
      rw [memberChars]
      simp only [List.cons_append,List.append_assoc]
      rw [members]
      simp [key_quote,hj,hms]
end

mutual
theorem cost_le : ∀ j : Json, cost j ≤ (chars j).length
  | .null | .bool true | .bool false | .string _ | .array [] | .object [] => by simp [cost,chars]
  | .number n => by
      obtain ⟨c,cs,hcs,-⟩ := numberChars_cons n
      simp [cost,chars,hcs]
  | .array (j :: js) => by
      have hj := cost_le j
      have hjs := itemsCost_le js
      simp only [cost,chars,List.length_cons,List.length_append]
      omega
  | .object ((k,j) :: ms) => by
      have hj := cost_le j
      have hms := membersCost_le ms
      simp only [cost,chars,List.length_cons,List.length_append]
      omega

theorem itemsCost_le : ∀ js : List Json, itemsCost js ≤ (itemChars js).length
  | [] => le_rfl
  | j :: js => by
      have hj := cost_le j
      have hjs := itemsCost_le js
      simp only [itemsCost,itemChars,List.length_cons,List.length_append]
      omega

theorem membersCost_le : ∀ ms : List (String × Json), membersCost ms ≤ (memberChars ms).length
  | [] => le_rfl
  | (k,j) :: ms => by
      have hj := cost_le j
      have hms := membersCost_le ms
      simp only [membersCost,memberChars,List.length_cons,List.length_append]
      omega
end

def toText (j : Json) : String := String.ofList (chars j)

def fromText (t : String) : Except JsonError Json :=
  match value t.toList.length t.toList with
  | some (j,[]) => if j.depth ≤ recursionLimit then .ok j else .error .malformed
  | _ => .error .malformed

theorem fromText_toText_eq (j : Json) :
    fromText (toText j) = if j.depth ≤ recursionLimit then .ok j else .error .malformed := by
  have hv := value_chars j (chars j).length [] (cost_le j) (by simp [Ends])
  rw [List.append_nil] at hv
  rw [fromText,toText,String.toList_ofList,hv]

theorem fromText_limit {t : String} {j : Json} (h : fromText t = .ok j) :
    j.depth ≤ recursionLimit := by
  unfold fromText at h
  split at h
  · split at h
    · rename_i hd
      exact Except.ok.inj h ▸ hd
    · simp at h
  · simp at h

end Trees

end Compact

-- Compact JSON text as serde_json writes it, but for floats. It reads what it writes; serde_json
-- also takes white space, `\u` escapes, decimals and upper-case identifiers, and refuses `01`.
def compact : Serde where
  toText := Compact.toText
  fromText := Compact.fromText
  uuidText := Uuid.text
  parseUuid := Uuid.parse
  fromText_toText := fun j h => by rw [Compact.fromText_toText_eq,if_pos h]
  fromText_deep := fun j h => ⟨.malformed,by rw [Compact.fromText_toText_eq,if_neg (Nat.not_le.mpr h)]⟩
  fromText_depth := Compact.fromText_limit
  parseUuid_uuidText := Uuid.parse_text

end Objsds
