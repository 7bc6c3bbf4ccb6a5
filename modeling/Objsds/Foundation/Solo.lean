import Objsds.Foundation.Pool

namespace Foundation

variable {E : Type} {R : E → Type} {α β W : Type} {env : W → Event R → W → Prop} {i : ℕ}

inductive Solo (env : W → Event R → W → Prop) (i : ℕ) :
    W → Program R α → List (Sigma R) → W → α → Prop
  | done {w : W} {a : α} : Solo env i w (.done a) [] w a
  | perform {w w' w'' : W} {e : E} {next : R e → Program R α} {r : R e} {h : List (Sigma R)} {a : α} :
      env w ⟨i,e,r⟩ w' → Solo env i w' (next r) h w'' a →
      Solo env i w (.perform e next) (⟨e,r⟩ :: h) w'' a

namespace Solo

variable {w w' : W} {h : List (Sigma R)}

theorem done_iff {a b : α} : Solo env i w (.done a) h w' b ↔ h = [] ∧ w' = w ∧ b = a := by
  constructor
  · intro hs
    cases hs
    exact ⟨rfl,rfl,rfl⟩
  · rintro ⟨rfl,rfl,rfl⟩
    exact .done

theorem perform_iff {e : E} {next : R e → Program R α} {a : α} :
    Solo env i w (.perform e next) h w' a ↔ ∃ r h' w₁, h = ⟨e,r⟩ :: h' ∧ env w ⟨i,e,r⟩ w₁ ∧
      Solo env i w₁ (next r) h' w' a := by
  constructor
  · intro hs
    cases hs with
    | perform he hn => exact ⟨_,_,_,rfl,he,hn⟩
  · rintro ⟨r,h',w₁,rfl,he,hn⟩
    exact .perform he hn

theorem map_iff {p : Program R α} {f : α → β} {b : β} :
    Solo env i w (f <$> p) h w' b ↔ ∃ a, Solo env i w p h w' a ∧ f a = b := by
  constructor
  · intro hs
    induction p generalizing w h with
    | done a =>
        obtain ⟨rfl,rfl,rfl⟩ := done_iff.mp hs
        exact ⟨a,.done,rfl⟩
    | perform e next ih =>
        obtain ⟨r,h',w₁,rfl,he,hn⟩ := perform_iff.mp hs
        obtain ⟨a,ha,hb⟩ := ih r hn
        exact ⟨a,.perform he ha,hb⟩
  · rintro ⟨a,hs,rfl⟩
    induction hs with
    | done => exact .done
    | perform he _ ih => exact .perform he ih

theorem follows {p : Program R α} {a : α} (hs : Solo env i w p h w' a) : p.Follows h (.done a) := by
  induction hs with
  | done => exact .refl _
  | perform _ _ ih => exact .step ih

def events (i : ℕ) (h : List (Sigma R)) : Trace R := h.map (fun x => ⟨i,x.1,x.2⟩)

theorem run {p : Program R α} {a : α} (hs : Solo env i w p h w' a) {c : Config W R α}
    (hw : c.world = w) (hp : c.calls i = p) :
    ∃ c', Run env c (events i h) c' ∧ c'.world = w' ∧ c'.calls i = .done a ∧
      ∀ j, j ≠ i → c'.calls j = c.calls j := by
  induction hs generalizing c with
  | done => exact ⟨c,.nil,hw,hp,fun _ _ => rfl⟩
  | @perform w w₁ w'' e next r h a he _ ih =>
      subst hw
      have hstep : Step env c ⟨i,e,r⟩ ⟨w₁,Function.update c.calls i (next r)⟩ := .perform hp he
      obtain ⟨c',hr,hw',ha,hj⟩ := ih (c := ⟨w₁,Function.update c.calls i (next r)⟩) rfl
        (Function.update_self ..)
      refine ⟨c',.cons hstep hr,hw',ha,fun j hne => ?_⟩
      rw [hj j hne]
      exact Function.update_of_ne hne ..

theorem after {c m : Config W R α} {tr : Trace R} {p : Program R α} {a : α} (hr : Run env c tr m)
    (hs : Solo env i w p h w' a) (hw : m.world = w) (hp : m.calls i = p) :
    ∃ c', Run env c (tr ++ events i h) c' ∧ c'.world = w' ∧ c'.calls i = .done a ∧
      ∀ j, j ≠ i → c'.calls j = m.calls j := by
  obtain ⟨c',hr',hw',ha,hj⟩ := hs.run hw hp
  exact ⟨c',Run.append_iff.mpr ⟨m,hr,hr'⟩,hw',ha,hj⟩

end Solo

end Foundation
