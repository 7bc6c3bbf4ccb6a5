import Objsds.Binding.Execute

namespace Objsds

open Foundation

section Fields

variable {α : Type} {j j' : Json}

theorem Json.field_depth {arity index : ℕ} {name : String}
    (h : j.field arity index name = .ok (some j')) : j'.depth + 1 ≤ j.depth := by
  cases j with
  | object members =>
      simp only [Json.field] at h
      split at h
      · simp at h
      · rename_i k j₀ hf
        obtain rfl : j₀ = j' := by simpa using h
        have hmem : (k,j₀) ∈ members.filter (fun p => decide (p.1 = name)) := by simp [hf]
        exact Json.depth_lt_object (List.mem_filter.mp hmem).1
      · simp at h
  | array items =>
      simp only [Json.field] at h
      split at h
      · exact Json.depth_lt_array (List.mem_of_getElem? (Except.ok.inj h))
      · simp at h
  | null | bool | number | string => simp [Json.field] at h

theorem Json.required_inv {f : Json → Except JsonError α} {x : Option Json} {a : α}
    (h : Json.required f x = .ok a) : ∃ j, x = some j ∧ f j = .ok a := by
  cases x with
  | none => simp [Json.required] at h
  | some j => exact ⟨j,rfl,h⟩

theorem Header.payload_depth {name : String} {f : Json → Except JsonError α} {a : α}
    (h : Header.payload name f j = .ok a) : ∃ j', f j' = .ok a ∧ j'.depth + 1 ≤ j.depth := by
  obtain ⟨x,hx,h⟩ := except_bind_eq_ok.mp h
  obtain ⟨j',rfl,ha⟩ := Json.required_inv h
  exact ⟨j',ha,Json.field_depth hx⟩

theorem Json.sequence_depth {f : Json → Except JsonError α} {xs : List α}
    (h : Json.sequence f j = .ok xs) :
    ∀ x ∈ xs, ∃ j', f j' = .ok x ∧ j'.depth + 1 ≤ j.depth := by
  cases j with
  | array items =>
      intro x hx
      obtain ⟨j',hj',hf⟩ := forall₂_right (mapM_ok_iff.mp h) hx
      exact ⟨j',hf,Json.depth_lt_array hj'⟩
  | null | bool | number | string | object => simp [Json.sequence] at h

theorem Json.btreeMap_depth {f : Json → Except JsonError α} {m : SortedMap String α}
    (h : Json.btreeMap f j = .ok m) :
    ∀ p ∈ m.entries, ∃ j', f j' = .ok p.2 ∧ j'.depth + 1 ≤ j.depth := by
  cases j with
  | object members =>
      have hfold : ∀ (ms : List (String × Json)) (m₀ m : SortedMap String α),
          ms.foldlM (fun m p => (f p.2).map (m.insert p.1)) m₀ = .ok m →
          ∀ p ∈ m.entries, p ∈ m₀.entries ∨ ∃ q ∈ ms, f q.2 = .ok p.2 := by
        intro ms
        induction ms with
        | nil =>
            intro m₀ m h p hp
            obtain rfl := Except.ok.inj h
            exact .inl hp
        | cons q ms ih =>
            intro m₀ m h p hp
            rw [List.foldlM_cons] at h
            obtain ⟨m₁,hm₁,h⟩ := except_bind_eq_ok.mp h
            obtain ⟨a,ha,rfl⟩ := except_map_eq_ok.mp hm₁
            rcases ih _ _ h p hp with hp | ⟨q',hq',hf⟩
            · rcases SortedMap.mem_insert.mp hp with rfl | hp
              · exact .inr ⟨q,List.mem_cons_self ..,ha⟩
              · exact .inl hp.1
            · exact .inr ⟨q',List.mem_cons_of_mem _ hq',hf⟩
      intro p hp
      rcases hfold members _ _ h p hp with hp | ⟨⟨k,j'⟩,hq,hf⟩
      · simp at hp
      · exact ⟨j',hf,Json.depth_lt_object hq⟩
  | null | bool | number | string | array => simp [Json.btreeMap] at h

end Fields

section Values

theorem valueCodec_readsBack {levels : ℕ} {v : Value} :
    valueCodec.ReadsBack levels v ↔ v.tree.depth + levels ≤ recursionLimit := by
  constructor
  · rintro ⟨j,hj,hd,-⟩
    obtain rfl := Except.ok.inj hj
    exact hd
  · intro h
    exact ⟨v.tree,rfl,h,congrArg _ v.value_tree⟩

theorem valueCodec_depth {j : Json} {v : Value} (h : valueCodec.deserialize j = .ok v) :
    v.tree.depth ≤ j.depth := by
  obtain rfl := Except.ok.inj h
  exact j.toValue_depth_le

theorem valueField_depth {x : Option Json} {j : Json} {v : Value} {arity index : ℕ} {name : String}
    (hx : j.field arity index name = .ok x) (h : Json.valueField valueCodec x = .ok v) :
    v.tree.depth + 1 ≤ j.depth := by
  cases x with
  | none => simp [Json.valueField,valueCodec] at h
  | some j' => exact (Nat.add_le_add_right (valueCodec_depth h) 1).trans (Json.field_depth hx)

end Values

section Documents

variable {serde : Serde} {b : Bytes}

theorem OwnedMapDocument.fromSlice_depth {d : OwnedMapDocument Value}
    (h : OwnedMapDocument.fromSlice serde valueCodec b = .ok d) :
    ∀ p ∈ d.entries.entries, valueCodec.ReadsBack 2 p.2 := by
  intro p hp
  obtain ⟨j,hj,h⟩ := except_bind_eq_ok.mp h
  obtain ⟨header,-,h⟩ := except_bind_eq_ok.mp h
  obtain ⟨entries,hentries,h⟩ := except_bind_eq_ok.mp h
  obtain rfl := Except.ok.inj h
  obtain ⟨j₁,hj₁,hd₁⟩ := Header.payload_depth hentries
  obtain ⟨j₂,hj₂,hd₂⟩ := Json.btreeMap_depth hj₁ p hp
  have hlimit := serde.fromSlice_depth hj
  have hv := valueCodec_depth hj₂
  exact valueCodec_readsBack.mpr (by omega)

theorem LogDocument.fromSlice_depth {d : LogDocument Value}
    (h : LogDocument.fromSlice serde valueCodec b = .ok d) :
    ∀ r ∈ d.records, valueCodec.ReadsBack 3 r.value := by
  intro r hr
  obtain ⟨j,hj,h⟩ := except_bind_eq_ok.mp h
  obtain ⟨header,-,h⟩ := except_bind_eq_ok.mp h
  obtain ⟨records,hrecords,h⟩ := except_bind_eq_ok.mp h
  obtain rfl := Except.ok.inj h
  obtain ⟨j₁,hj₁,hd₁⟩ := Header.payload_depth hrecords
  obtain ⟨j₂,hj₂,hd₂⟩ := Json.sequence_depth hj₁ r hr
  have hlimit := serde.fromSlice_depth hj
  obtain ⟨x,-,h⟩ := except_bind_eq_ok.mp hj₂
  obtain ⟨id,-,h⟩ := except_bind_eq_ok.mp h
  obtain ⟨y,hy,h⟩ := except_bind_eq_ok.mp h
  obtain ⟨v,hv,h⟩ := except_bind_eq_ok.mp h
  obtain rfl := Except.ok.inj h
  have hdepth := valueField_depth hy hv
  exact valueCodec_readsBack.mpr (by simp only; omega)

theorem Queue.Document.fromSlice_depth {d : Queue.Document Value}
    (h : Queue.Document.fromSlice serde valueCodec b = .ok d) :
    ∀ m ∈ d.messages, valueCodec.ReadsBack 3 m.value := by
  intro m hm
  obtain ⟨j,hj,h⟩ := except_bind_eq_ok.mp h
  obtain ⟨header,-,h⟩ := except_bind_eq_ok.mp h
  obtain ⟨messages,hmessages,h⟩ := except_bind_eq_ok.mp h
  obtain rfl := Except.ok.inj h
  obtain ⟨j₁,hj₁,hd₁⟩ := Header.payload_depth hmessages
  obtain ⟨j₂,hj₂,hd₂⟩ := Json.sequence_depth hj₁ m hm
  have hlimit := serde.fromSlice_depth hj
  obtain ⟨x,-,h⟩ := except_bind_eq_ok.mp hj₂
  obtain ⟨id,-,h⟩ := except_bind_eq_ok.mp h
  obtain ⟨y,hy,h⟩ := except_bind_eq_ok.mp h
  obtain ⟨v,hv,h⟩ := except_bind_eq_ok.mp h
  obtain ⟨z,-,h⟩ := except_bind_eq_ok.mp h
  obtain ⟨attempts,-,h⟩ := except_bind_eq_ok.mp h
  obtain ⟨u,-,h⟩ := except_bind_eq_ok.mp h
  obtain ⟨lease,-,h⟩ := except_bind_eq_ok.mp h
  obtain rfl := Except.ok.inj h
  have hdepth := valueField_depth hy hv
  exact valueCodec_readsBack.mpr (by simp only; omega)

theorem OwnedMapDocument.serialize_depth {d : OwnedMapDocument Value} {j : Json}
    (h : d.serialize valueCodec = .ok j) :
    ∀ p ∈ d.entries.entries, p.2.tree.depth + 2 ≤ j.depth := by
  intro p hp
  obtain ⟨entries,hentries,h⟩ := except_bind_eq_ok.mp h
  obtain rfl := Except.ok.inj h
  obtain ⟨members,hm,h⟩ := except_bind_eq_ok.mp hentries
  obtain rfl := Except.ok.inj h
  obtain ⟨q,hq,hf⟩ := mapM_mem hm hp
  obtain rfl := Except.ok.inj hf
  rw [Header.depth_document]
  exact Nat.add_le_add_right (Json.depth_lt_object hq) 1

theorem LogDocument.serialize_depth {d : LogDocument Value} {j : Json}
    (h : d.serialize serde valueCodec = .ok j) :
    ∀ r ∈ d.records, r.value.tree.depth + 3 ≤ j.depth := by
  intro r hr
  obtain ⟨value,hv,hdepth⟩ := LogDocument.serialize_levels h hr
  obtain rfl := Except.ok.inj hv
  exact hdepth

theorem Queue.Document.serialize_depth {d : Queue.Document Value} {j : Json}
    (h : d.serialize serde valueCodec = .ok j) :
    ∀ m ∈ d.messages, m.value.tree.depth + 3 ≤ j.depth := by
  intro m hm
  obtain ⟨items,hi,h⟩ := except_bind_eq_ok.mp h
  obtain rfl := Except.ok.inj h
  obtain ⟨q,hq,hf⟩ := mapM_mem hi hm
  obtain rfl := Except.ok.inj hf
  have hitem := Json.depth_lt_array hq
  have hvalue : m.value.tree.depth + 1 ≤
      (Json.object [("id",.ofUuid serde m.id),("value",m.value.tree),
        ("attempts",.ofU32 m.attempts),("lease",Lease.serializeOption serde m.lease)]).depth :=
    Json.depth_lt_object (k := "value") (by simp)
  rw [Header.depth_document]
  omega

end Documents

end Objsds
