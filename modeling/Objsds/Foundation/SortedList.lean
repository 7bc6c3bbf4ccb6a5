import Mathlib.Data.List.Sort
import Mathlib.Order.Compare

namespace Foundation

variable {α κ : Type}

section BinarySearch

-- The loop of `slice::binary_search_by`: `fuel` bounds the halvings and is the slice's length.
def bisect (probe : ℕ → Ordering) : ℕ → ℕ → ℕ → ℕ
  | 0, base, _ => base
  | fuel + 1, base, size =>
      if size ≤ 1 then base
      else
        let half := size / 2
        bisect probe fuel (if probe (base + half) = .gt then base else base + half) (size - half)

def probe (xs : List α) (x : α) (f : α → Ordering) (i : ℕ) : Ordering := f (xs.getD i x)

def binarySearchBy (xs : List α) (f : α → Ordering) : Except ℕ ℕ :=
  match xs with
  | [] => .error 0
  | x :: _ =>
      let base := bisect (probe xs x f) xs.length 0 xs.length
      match probe xs x f base with
      | .eq => .ok base
      | .lt => .error (base + 1)
      | .gt => .error base

def binarySearchByKey [Ord κ] (xs : List α) (b : κ) (key : α → κ) : Except ℕ ℕ :=
  binarySearchBy xs (fun a => compare (key a) b)

def partitionPoint (xs : List α) (p : α → Bool) : ℕ :=
  match binarySearchBy xs (fun a => if p a then .lt else .gt) with
  | .ok i => i
  | .error i => i

theorem bisect_spec (f : ℕ → Ordering) (n : ℕ)
    (hmono : ∀ i j, i < j → j < n → f j ≠ .gt → f i = .lt) :
    ∀ fuel base size, size ≤ fuel → 1 ≤ size → base + size ≤ n →
      (base = 0 ∨ f base ≠ .gt) → (∀ j, base + size ≤ j → j < n → f j = .gt) →
      bisect f fuel base size < n ∧
      (bisect f fuel base size = 0 ∨ f (bisect f fuel base size) ≠ .gt) ∧
      ∀ j, bisect f fuel base size < j → j < n → f j = .gt := by
  intro fuel
  induction fuel with
  | zero => intro base size hs h1; omega
  | succ fuel ih =>
      intro base size hs h1 hn hb hgt
      simp only [bisect]
      split
      · have he : size = 1 := by omega
        subst he
        exact ⟨by omega,hb,fun j hj hjn => hgt j (by omega) hjn⟩
      · split
        · rename_i hmid
          refine ih base (size - size / 2) (by omega) (by omega) (by omega) hb ?_
          intro j hj hjn
          rcases Nat.lt_or_ge j (base + size) with hlt | hge
          · by_contra hne
            have hle : base + size / 2 ≤ j := by omega
            rcases Nat.lt_or_eq_of_le hle with hl | he
            · have := hmono _ j hl hjn hne
              simp [hmid] at this
            · exact hne (he ▸ hmid)
          · exact hgt j hge hjn
        · rename_i hmid
          refine ih (base + size / 2) (size - size / 2) (by omega) (by omega) (by omega)
            (.inr hmid) ?_
          intro j hj hjn
          exact hgt j (by omega) hjn

def Partitioned (f : α → Ordering) (l r : List α) : Prop :=
  (∀ a ∈ l, f a = .lt) ∧ ∀ a ∈ r, f a = .gt

theorem binarySearchBy_spec {xs : List α} {f : α → Ordering}
    (h : xs.Pairwise (fun a b => f b ≠ .gt → f a = .lt)) :
    match binarySearchBy xs f with
    | .ok i => ∃ l x r, xs = l ++ x :: r ∧ l.length = i ∧ f x = .eq ∧ Partitioned f l r
    | .error i => ∃ l r, xs = l ++ r ∧ l.length = i ∧ Partitioned f l r := by
  cases xs with
  | nil => exact ⟨[],[],rfl,rfl,by simp [Partitioned]⟩
  | cons y ys =>
      generalize hxs : y :: ys = xs at h
      have hget : ∀ i (hi : i < xs.length), probe xs y f i = f xs[i] := by
        intro i hi
        simp [probe,List.getElem?_eq_getElem hi]
      have hmono : ∀ i j, i < j → j < xs.length → probe xs y f j ≠ .gt →
          probe xs y f i = .lt := by
        intro i j hij hj hne
        rw [hget j hj] at hne
        rw [hget i (by omega)]
        exact List.pairwise_iff_getElem.mp h i j (by omega) hj hij hne
      have hpos : 1 ≤ xs.length := by simp [← hxs]
      obtain ⟨hlt,hbase,hgt⟩ := bisect_spec (probe xs y f) xs.length hmono xs.length 0 xs.length
        le_rfl hpos (by omega) (.inl rfl) (by intro j hj hjn; omega)
      have hunfold : binarySearchBy xs f =
          match probe xs y f (bisect (probe xs y f) xs.length 0 xs.length) with
          | .eq => .ok (bisect (probe xs y f) xs.length 0 xs.length)
          | .lt => .error (bisect (probe xs y f) xs.length 0 xs.length + 1)
          | .gt => .error (bisect (probe xs y f) xs.length 0 xs.length) := by
        rw [← hxs]
        rfl
      rw [hunfold]
      generalize bisect (probe xs y f) xs.length 0 xs.length = b at hlt hbase hgt
      have hsplit : xs = xs.take b ++ xs[b] :: xs.drop (b + 1) := by
        rw [List.getElem_cons_drop,List.take_append_drop]
      have hright : ∀ a ∈ xs.drop (b + 1), f a = .gt := by
        intro a ha
        obtain ⟨j,hj,rfl⟩ := List.mem_iff_getElem.mp ha
        simp only [List.length_drop] at hj
        rw [List.getElem_drop,← hget _ (by omega)]
        exact hgt _ (by omega) (by omega)
      have hleft : f xs[b] ≠ .gt → ∀ a ∈ xs.take b, f a = .lt := by
        intro hne a ha
        obtain ⟨j,hj,rfl⟩ := List.mem_iff_getElem.mp ha
        simp only [List.length_take] at hj
        rw [List.getElem_take,← hget _ (by omega)]
        exact hmono j b (by omega) hlt (by rwa [hget b hlt])
      have hlen : (xs.take b).length = b := by simp [List.length_take]; omega
      rw [hget b hlt] at hbase ⊢
      cases hf : f xs[b] with
      | eq => exact ⟨_,_,_,hsplit,hlen,hf,hleft (by simp [hf]),hright⟩
      | lt =>
          refine ⟨xs.take (b + 1),xs.drop (b + 1),(List.take_append_drop ..).symm,
            by simp [List.length_take]; omega,?_,hright⟩
          intro a ha
          rw [List.take_succ_eq_append_getElem hlt] at ha
          rcases List.mem_append.mp ha with ha | ha
          · exact hleft (by simp [hf]) a ha
          · rw [List.mem_singleton.mp ha]
            exact hf
      | gt =>
          have hb0 : b = 0 := hbase.resolve_right (fun hne => hne hf)
          subst hb0
          refine ⟨[],xs,rfl,rfl,by simp,?_⟩
          intro a ha
          rw [hsplit] at ha
          simp only [List.take_zero,List.nil_append,List.mem_cons] at ha
          rcases ha with rfl | ha
          · exact hf
          · exact hright a ha

theorem partitionPoint_spec {xs : List α} {p : α → Bool}
    (h : xs.Pairwise (fun a b => p b = true → p a = true)) :
    ∃ l r, xs = l ++ r ∧ l.length = partitionPoint xs p ∧
      (∀ a ∈ l, p a = true) ∧ ∀ a ∈ r, p a = false := by
  have hp : xs.Pairwise (fun a b => (if p b then Ordering.lt else .gt) ≠ .gt →
      (if p a then Ordering.lt else .gt) = .lt) := by
    refine h.imp ?_
    intro a b hab
    cases hb : p b <;> simp_all
  have hs := binarySearchBy_spec hp
  unfold partitionPoint
  cases hb : binarySearchBy xs (fun a => if p a then Ordering.lt else .gt) with
  | ok i =>
      rw [hb] at hs
      obtain ⟨l,x,r,-,-,hx,-⟩ := hs
      split at hx <;> simp at hx
  | error i =>
      rw [hb] at hs
      obtain ⟨l,r,he,hl,hlt,hgt⟩ := hs
      refine ⟨l,r,he,hl,?_,?_⟩
      · intro a ha
        simpa using hlt a ha
      · intro a ha
        simpa using hgt a ha

end BinarySearch

section Increasing

variable [LinearOrder κ] (key : α → κ)

def Increasing (xs : List α) : Prop := xs.Pairwise (fun a b => key a < key b)

def windows (xs : List α) : List (α × α) := xs.zip xs.tail

def outOfOrder (xs : List α) : Bool := (windows xs).any (fun w => decide (key w.1 ≥ key w.2))

variable {key}

theorem outOfOrder_eq_false {xs : List α} : outOfOrder key xs = false ↔ Increasing key xs := by
  have hchain : outOfOrder key xs = false ↔ xs.IsChain (fun a b => key a < key b) := by
    induction xs with
    | nil => simp [outOfOrder,windows]
    | cons x xs ih =>
        cases xs with
        | nil => simp [outOfOrder,windows]
        | cons y ys =>
            simp only [List.isChain_cons_cons,← ih]
            simp [outOfOrder,windows]
  rw [hchain,Increasing]
  have : IsTrans α (fun a b => key a < key b) := ⟨fun _ _ _ => lt_trans⟩
  exact List.isChain_iff_pairwise

theorem Increasing.key_inj {xs : List α} (h : Increasing key xs) {a b : α}
    (ha : a ∈ xs) (hb : b ∈ xs) (hk : key a = key b) : a = b := by
  induction xs with
  | nil => simp at ha
  | cons x xs ih =>
      obtain ⟨hx,hxs⟩ := List.pairwise_cons.mp h
      rcases List.mem_cons.mp ha with rfl | ha' <;> rcases List.mem_cons.mp hb with rfl | hb'
      · rfl
      · exact absurd hk (ne_of_lt (hx b hb'))
      · exact absurd hk.symm (ne_of_lt (hx a ha'))
      · exact ih hxs ha' hb'

theorem Increasing.nodup_keys {xs : List α} (h : Increasing key xs) : (xs.map key).Nodup :=
  List.pairwise_map.mpr (h.imp (fun hab => ne_of_lt hab))

theorem Increasing.nodup {xs : List α} (h : Increasing key xs) : xs.Nodup :=
  h.nodup_keys.of_map

theorem Increasing.sublist {xs ys : List α} (h : Increasing key ys) (hs : xs.Sublist ys) :
    Increasing key xs :=
  List.Pairwise.sublist hs h

theorem Increasing.eq_of_mem_iff {xs ys : List α} (hx : Increasing key xs)
    (hy : Increasing key ys) (h : ∀ a, a ∈ xs ↔ a ∈ ys) : xs = ys := by
  have hp : xs.Perm ys := (List.perm_ext_iff_of_nodup hx.nodup hy.nodup).mpr h
  refine hp.eq_of_pairwise ?_ hx hy
  intro a b _ _ hab hba
  exact absurd (lt_trans hab hba) (lt_irrefl _)

theorem Increasing.sublist_of_subset {xs ys : List α} (hx : Increasing key xs)
    (hy : Increasing key ys) (h : ∀ a ∈ xs, a ∈ ys) : xs.Sublist ys := by
  induction ys generalizing xs with
  | nil =>
      cases xs with
      | nil => exact .slnil
      | cons x xs => exact absurd (h x (by simp)) (by simp)
  | cons y ys ih =>
      obtain ⟨hyl,hys⟩ := List.pairwise_cons.mp hy
      cases xs with
      | nil => exact List.nil_sublist _
      | cons x xs =>
          obtain ⟨hxl,hxs⟩ := List.pairwise_cons.mp hx
          rcases List.mem_cons.mp (h x (by simp)) with rfl | hmem
          · refine (ih hxs hys ?_).cons_cons x
            intro a ha
            rcases List.mem_cons.mp (h a (by simp [ha])) with rfl | hm
            · exact absurd (hxl a ha) (lt_irrefl _)
            · exact hm
          · refine (ih hx hys ?_).cons y
            intro a ha
            rcases List.mem_cons.mp (h a ha) with rfl | hm
            · rcases List.mem_cons.mp ha with rfl | ha
              · exact hmem
              · exact absurd (lt_trans (hyl x hmem) (hxl a ha)) (lt_irrefl _)
            · exact hm

theorem Increasing.comparisons {xs : List α} (h : Increasing key xs) (b : κ) :
    xs.Pairwise (fun x y => compare (key y) b ≠ .gt → compare (key x) b = .lt) := by
  refine h.imp ?_
  intro x y hxy hne
  rw [compare_lt_iff_lt]
  exact lt_of_lt_of_le hxy (not_lt.mp (fun hlt => hne (compare_gt_iff_gt.mpr hlt)))

theorem binarySearchByKey_ok {xs : List α} (h : Increasing key xs) {b : κ} {i : ℕ}
    (hs : binarySearchByKey xs b key = .ok i) :
    ∃ l x r, xs = l ++ x :: r ∧ l.length = i ∧ key x = b := by
  have hspec := binarySearchBy_spec (h.comparisons b)
  rw [binarySearchByKey] at hs
  rw [hs] at hspec
  obtain ⟨l,x,r,he,hl,hx,-⟩ := hspec
  exact ⟨l,x,r,he,hl,compare_eq_iff_eq.mp hx⟩

theorem binarySearchByKey_error {xs : List α} (h : Increasing key xs) {b : κ} {i : ℕ}
    (hs : binarySearchByKey xs b key = .error i) :
    ∃ l r, xs = l ++ r ∧ l.length = i ∧ (∀ a ∈ l, key a < b) ∧ ∀ a ∈ r, b < key a := by
  have hspec := binarySearchBy_spec (h.comparisons b)
  rw [binarySearchByKey] at hs
  rw [hs] at hspec
  obtain ⟨l,r,he,hl,hlt,hgt⟩ := hspec
  exact ⟨l,r,he,hl,fun a ha => compare_lt_iff_lt.mp (hlt a ha),
    fun a ha => compare_gt_iff_gt.mp (hgt a ha)⟩

theorem insertIdx_length_append (l r : List α) (x : α) :
    (l ++ r).insertIdx l.length x = l ++ x :: r := by
  induction l with
  | nil => rfl
  | cons a l ih => simp [ih]

theorem Increasing.insert_between {l r : List α} {x : α} (h : Increasing key (l ++ r))
    (hl : ∀ a ∈ l, key a < key x) (hr : ∀ a ∈ r, key x < key a) :
    Increasing key (l ++ x :: r) := by
  obtain ⟨hll,hrr,hlr⟩ := List.pairwise_append.mp h
  refine List.pairwise_append.mpr ⟨hll,List.pairwise_cons.mpr ⟨hr,hrr⟩,?_⟩
  intro a ha b hb
  rcases List.mem_cons.mp hb with rfl | hb
  · exact hl a ha
  · exact hlr a ha b hb

theorem Increasing.replace_key {l r : List α} {x y : α} (h : Increasing key (l ++ x :: r))
    (he : key y = key x) : Increasing key (l ++ y :: r) := by
  obtain ⟨hl,hxr,hlr⟩ := List.pairwise_append.mp h
  obtain ⟨hx,hr⟩ := List.pairwise_cons.mp hxr
  refine List.pairwise_append.mpr ⟨hl,List.pairwise_cons.mpr ⟨fun a ha => he ▸ hx a ha,hr⟩,?_⟩
  intro a ha b hb
  rcases List.mem_cons.mp hb with rfl | hb
  · exact he ▸ hlr a ha x (by simp)
  · exact hlr a ha b (by simp [hb])

theorem Increasing.others_ne {l r : List α} {x : α} (h : Increasing key (l ++ x :: r)) :
    ∀ a ∈ l ++ r, key a ≠ key x := by
  obtain ⟨-,hxr,hlr⟩ := List.pairwise_append.mp h
  intro a ha
  rcases List.mem_append.mp ha with ha | ha
  · exact ne_of_lt (hlr a ha x (by simp))
  · exact ne_of_gt ((List.pairwise_cons.mp hxr).1 a ha)

end Increasing

end Foundation
