import Objsds.Foundation.SortedList

namespace Foundation

structure SortedMap (κ V : Type) [LinearOrder κ] where
  entries : List (κ × V)
  increasing : Increasing Prod.fst entries

namespace SortedMap

variable {κ V : Type} [LinearOrder κ]

@[ext] theorem ext {m m' : SortedMap κ V} (h : m.entries = m'.entries) : m = m' := by
  cases m
  cases m'
  simp only at h
  subst h
  rfl

instance [DecidableEq V] : DecidableEq (SortedMap κ V) := fun m m' =>
  decidable_of_iff (m.entries = m'.entries) ⟨ext,fun h => h ▸ rfl⟩

def empty : SortedMap κ V := ⟨[],.nil⟩

def get? (m : SortedMap κ V) (k : κ) : Option V := (m.entries.find? (·.1 = k)).map Prod.snd

def insert (m : SortedMap κ V) (k : κ) (v : V) : SortedMap κ V where
  entries := m.entries.filter (·.1 < k) ++ (k,v) :: m.entries.filter (k < ·.1)
  increasing := by
    refine List.pairwise_append.mpr ⟨m.increasing.sublist List.filter_sublist,
      List.pairwise_cons.mpr ⟨?_,m.increasing.sublist List.filter_sublist⟩,?_⟩
    · intro a ha
      simpa using (List.mem_filter.mp ha).2
    · intro a ha b hb
      have hak : a.1 < k := by simpa using (List.mem_filter.mp ha).2
      rcases List.mem_cons.mp hb with rfl | hb
      · exact hak
      · exact lt_trans hak (by simpa using (List.mem_filter.mp hb).2)

def erase (m : SortedMap κ V) (k : κ) : SortedMap κ V where
  entries := m.entries.filter (·.1 ≠ k)
  increasing := m.increasing.sublist List.filter_sublist

def remove (m : SortedMap κ V) (k : κ) : Option V × SortedMap κ V := (m.get? k,m.erase k)

@[simp] theorem entries_empty : (empty : SortedMap κ V).entries = [] := rfl

theorem mem_entries_iff {m : SortedMap κ V} {k : κ} {v : V} :
    (k,v) ∈ m.entries ↔ m.get? k = some v := by
  simp only [get?,Option.map_eq_some_iff]
  constructor
  · intro h
    cases hf : m.entries.find? (·.1 = k) with
    | none =>
        have := List.find?_eq_none.mp hf _ h
        simp at this
    | some p =>
        have hp : p.1 = k := by simpa using List.find?_some hf
        have : p = (k,v) := m.increasing.key_inj (List.mem_of_find?_eq_some hf) h hp
        exact ⟨p,rfl,by rw [this]⟩
  · rintro ⟨p,hf,rfl⟩
    have hp : p.1 = k := by simpa using List.find?_some hf
    subst hp
    exact List.mem_of_find?_eq_some hf

theorem mem_insert {m : SortedMap κ V} {k : κ} {v : V} {p : κ × V} :
    p ∈ (m.insert k v).entries ↔ p = (k,v) ∨ (p ∈ m.entries ∧ p.1 ≠ k) := by
  simp only [insert,List.mem_append,List.mem_cons,List.mem_filter,decide_eq_true_eq]
  constructor
  · rintro (⟨hp,hlt⟩ | rfl | ⟨hp,hgt⟩)
    · exact .inr ⟨hp,ne_of_lt hlt⟩
    · exact .inl rfl
    · exact .inr ⟨hp,ne_of_gt hgt⟩
  · rintro (rfl | ⟨hp,hne⟩)
    · exact .inr (.inl rfl)
    · rcases lt_or_gt_of_ne hne with hlt | hgt
      · exact .inl ⟨hp,hlt⟩
      · exact .inr (.inr ⟨hp,hgt⟩)

@[simp] theorem get?_insert_self (m : SortedMap κ V) (k : κ) (v : V) :
    (m.insert k v).get? k = some v :=
  mem_entries_iff.mp (mem_insert.mpr (.inl rfl))

theorem get?_insert_of_ne (m : SortedMap κ V) {k j : κ} (v : V) (h : j ≠ k) :
    (m.insert k v).get? j = m.get? j := by
  ext w
  rw [← mem_entries_iff,← mem_entries_iff,mem_insert]
  simp [h]

theorem erase_of_get?_eq_none {m : SortedMap κ V} {k : κ} (h : m.get? k = none) :
    m.erase k = m := by
  refine ext (List.filter_eq_self.mpr ?_)
  rintro ⟨j,v⟩ hp
  have hj : j ≠ k := by
    rintro rfl
    rw [mem_entries_iff.mp hp] at h
    simp at h
  simp [hj]

theorem insert_entries_of_lt {m : SortedMap κ V} {k : κ} (v : V)
    (h : ∀ p ∈ m.entries, p.1 < k) : (m.insert k v).entries = m.entries ++ [(k,v)] := by
  have hl : m.entries.filter (·.1 < k) = m.entries :=
    List.filter_eq_self.mpr (fun p hp => by simpa using h p hp)
  have hr : m.entries.filter (k < ·.1) = [] :=
    List.filter_eq_nil_iff.mpr (fun p hp => by simpa using le_of_lt (h p hp))
  simp [insert,hl,hr]

theorem foldl_insert_entries (xs : List (κ × V)) : ∀ (m : SortedMap κ V),
    Increasing Prod.fst (m.entries ++ xs) →
    (xs.foldl (fun m p => m.insert p.1 p.2) m).entries = m.entries ++ xs := by
  induction xs with
  | nil => simp
  | cons p xs ih =>
      intro m h
      have hlt : ∀ q ∈ m.entries, q.1 < p.1 := fun q hq =>
        (List.pairwise_append.mp h).2.2 q hq p (by simp)
      have he := insert_entries_of_lt p.2 hlt
      rw [List.foldl_cons,ih _ (by rw [he]; simpa using h),he]
      simp

end SortedMap

end Foundation
