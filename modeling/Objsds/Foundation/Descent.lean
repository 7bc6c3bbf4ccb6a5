import Mathlib.Logic.Relation

namespace Foundation

open Relation

variable {α : Type} {R : α → α → Prop} {ok : α → Prop} {path : α → Prop} {v : α}

-- Everything below `v` is acceptable, and no descent from `v` comes back to itself or to `path`.
structure Clean (R : α → α → Prop) (ok path : α → Prop) (v : α) : Prop where
  accepted : ∀ w, ReflTransGen R v w → ok w
  acyclic : ∀ w, ReflTransGen R v w → ¬ TransGen R w w
  avoids : ∀ w, path w → ¬ ReflTransGen R v w

theorem Clean.child (h : Clean R ok path v) {c : α} (hc : R v c) :
    Clean R ok (fun w => w = v ∨ path w) c where
  accepted := fun w hw => h.accepted w (.head hc hw)
  acyclic := fun w hw => h.acyclic w (.head hc hw)
  avoids := by
    rintro w (rfl | hp) hw
    · exact h.acyclic w .refl (TransGen.head' hc hw)
    · exact h.avoids w hp (.head hc hw)

theorem clean_of_children (hok : ok v) (hv : ¬ path v)
    (h : ∀ c, R v c → Clean R ok (fun w => w = v ∨ path w) c) : Clean R ok path v where
  accepted := by
    intro w hw
    rcases hw.cases_head with rfl | ⟨c,hc,hw⟩
    · exact hok
    · exact (h c hc).accepted w hw
  acyclic := by
    intro w hw hcycle
    rcases hw.cases_head with rfl | ⟨c,hc,hw⟩
    · obtain ⟨c,hc,hback⟩ := TransGen.head'_iff.mp hcycle
      exact (h c hc).avoids v (.inl rfl) hback
    · exact (h c hc).acyclic w hw hcycle
  avoids := by
    intro w hp hw
    rcases hw.cases_head with rfl | ⟨c,hc,hw⟩
    · exact hv hp
    · exact (h c hc).avoids w (.inr hp) hw

theorem clean_iff :
    Clean R ok path v ↔ ok v ∧ ¬ path v ∧ ∀ c, R v c → Clean R ok (fun w => w = v ∨ path w) c := by
  constructor
  · intro h
    exact ⟨h.accepted v .refl,fun hp => h.avoids v hp .refl,fun c hc => h.child hc⟩
  · rintro ⟨hok,hv,h⟩
    exact clean_of_children hok hv h

end Foundation
