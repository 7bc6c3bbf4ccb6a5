import Objsds.Foundation.Pool

namespace Foundation

variable {E E' : Type} {R : E → Type} {R' : E' → Type} {α : Type}

namespace Program

def interpret (f : (e : E) → Program R' (R e)) : Program R α → Program R' α
  | .done a => .done a
  | .perform e next => f e >>= fun r => (next r).interpret f

-- Each answer above is the result of the effects below that stand for it.
inductive Carried (f : (e : E) → Program R' (R e)) : List (Sigma R) → List (Sigma R') → Prop
  | nil : Carried f [] []
  | cons {e : E} {r : R e} {h : List (Sigma R)} {own h' : List (Sigma R')} :
      (f e).Follows own (.done r) → Carried f h h' → Carried f (⟨e,r⟩ :: h) (own ++ h')

variable {f : (e : E) → Program R' (R e)} {h : List (Sigma R)} {h' : List (Sigma R')}

theorem interpret_done {p : Program R α} {a : α} (hf : (p.interpret f).Follows h' (.done a)) :
    ∃ h, p.Follows h (.done a) ∧ Carried f h h' := by
  induction p generalizing h' with
  | done b =>
      obtain ⟨rfl,hb⟩ := follows_done.mp hf
      obtain rfl := Program.done.inj hb
      exact ⟨[],.refl _,.nil⟩
  | perform e next ih =>
      have hsplit : ∃ own rest r, h' = own ++ rest ∧ (f e).Follows own (.done r) ∧
          ((next r).interpret f).Follows rest (.done a) := by
        rcases follows_bind hf with ⟨m,how,hm⟩ | ⟨own,rest,r,rfl,how,hr⟩
        · cases m with
          | done r => exact ⟨h',[],r,by simp,how,follows_nil.mpr hm⟩
          | perform e' next' => simp at hm
        · exact ⟨own,rest,r,rfl,how,hr⟩
      obtain ⟨own,rest,r,rfl,how,hr⟩ := hsplit
      obtain ⟨h,hp,hc⟩ := ih r hr
      exact ⟨⟨e,r⟩ :: h,.step hp,.cons how hc⟩

theorem interpret_follows {p : Program R α} {a : α} (hp : p.Follows h (.done a))
    (hc : Carried f h h') : (p.interpret f).Follows h' (.done a) := by
  induction hc generalizing p with
  | nil =>
      rw [← follows_nil.mp hp]
      exact .refl _
  | @cons e r h own h' how _ ih =>
      cases hp with
      | step hs => exact follows_append.mpr ⟨_,follows_bind_done how,ih hs⟩

theorem Carried.append_inv {h₁ h₂ : List (Sigma R)} (hc : Carried f (h₁ ++ h₂) h') :
    ∃ h₁' h₂', h' = h₁' ++ h₂' ∧ Carried f h₁ h₁' ∧ Carried f h₂ h₂' := by
  induction h₁ generalizing h' with
  | nil => exact ⟨[],h',rfl,.nil,hc⟩
  | cons x h₁ ih =>
      cases hc with
      | cons how hrest =>
          obtain ⟨h₁',h₂',rfl,hc₁,hc₂⟩ := ih hrest
          exact ⟨_,h₂',(List.append_assoc ..).symm,.cons how hc₁,hc₂⟩

theorem Carried.singleton {e : E} {r : R e} (hc : Carried f [⟨e,r⟩] h') :
    (f e).Follows h' (.done r) := by
  cases hc with
  | cons how hrest =>
      cases hrest
      simpa using how

theorem Carried.mem {e : E} {r : R e} (hc : Carried f h h') (hx : ⟨e,r⟩ ∈ h) :
    ∃ before own after, h' = before ++ own ++ after ∧ (f e).Follows own (.done r) := by
  obtain ⟨h₁,h₂,rfl⟩ := List.append_of_mem hx
  obtain ⟨before,rest,rfl,-,hrest⟩ := hc.append_inv
  cases hrest with
  | cons how _ => exact ⟨before,_,_,(List.append_assoc ..).symm,how⟩

end Program

end Foundation
