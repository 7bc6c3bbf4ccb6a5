import Objsds.Foundation.Pool

namespace Foundation

variable {E : Type} {R : E → Type} {W S α : Type}

section Scripts

variable (answer : S → ℕ → (e : E) → Option (R e × S))

-- Call `i` takes up to `n` steps, each answered as the script has it.
def turn (i : ℕ) : ℕ → Program R α → S → Option (Trace R × Program R α × S)
  | 0, p, s => some ([],p,s)
  | _ + 1, .done a, s => some ([],.done a,s)
  | n + 1, .perform e next, s =>
      (answer s i e).bind (fun x =>
        (turn i n (next x.1) x.2).map (fun y => (⟨i,e,x.1⟩ :: y.1,y.2)))

def rehearse : List (ℕ × ℕ) → Config S R α → Option (Trace R × Config S R α)
  | [], c => some ([],c)
  | (i,n) :: turns, c =>
      (turn answer i n (c.calls i) c.world).bind (fun x =>
        (rehearse turns ⟨x.2.2,Function.update c.calls i x.2.1⟩).map (fun y => (x.1 ++ y.1,y.2)))

def plays (world : S → W) (turns : List (ℕ × ℕ)) (c : Config S R α)
    (good : Trace R → Config W R α → Bool) : Bool :=
  (rehearse answer turns c).any (fun x => good x.1 ⟨world x.2.world,x.2.calls⟩)

end Scripts

def ended (good : α → Bool) : Program R α → Bool
  | .done a => good a
  | .perform _ _ => false

theorem ended_iff {good : α → Bool} {p : Program R α} :
    ended good p = true ↔ ∃ a, p = .done a ∧ good a = true := by
  cases p <;> simp [ended]

variable {answer : S → ℕ → (e : E) → Option (R e × S)} {world : S → W}
  {env : W → Event R → W → Prop}

theorem turn_run
    (hanswer : ∀ {s i e r s'}, answer s i e = some (r,s') → env (world s) ⟨i,e,r⟩ (world s'))
    {i n : ℕ} {p q : Program R α} {s s' : S} {tr : Trace R} {calls : ℕ → Program R α}
    (h : turn answer i n p s = some (tr,q,s')) (hp : calls i = p) :
    Run env ⟨world s,calls⟩ tr ⟨world s',Function.update calls i q⟩ := by
  induction n generalizing p s tr calls with
  | zero =>
      obtain ⟨rfl,rfl,rfl⟩ : [] = tr ∧ p = q ∧ s = s' := by simpa [turn] using h
      rw [← hp,Function.update_eq_self]
      exact .nil
  | succ n ih =>
      cases p with
      | done a =>
          obtain ⟨rfl,rfl,rfl⟩ : [] = tr ∧ .done a = q ∧ s = s' := by simpa [turn] using h
          rw [← hp,Function.update_eq_self]
          exact .nil
      | perform e next =>
          obtain ⟨⟨r,s₁⟩,hr,hrest⟩ := Option.bind_eq_some_iff.mp h
          obtain ⟨⟨tr₁,q₁,s₂⟩,hturn,heq⟩ := Option.map_eq_some_iff.mp hrest
          obtain ⟨rfl,rfl,rfl⟩ : (⟨i,e,r⟩ : Event R) :: tr₁ = tr ∧ q₁ = q ∧ s₂ = s' := by
            simpa using heq
          have hrun := ih hturn (Function.update_self i (next r) calls)
          rw [Function.update_idem] at hrun
          exact .cons (.perform hp (hanswer hr)) hrun

theorem rehearse_run
    (hanswer : ∀ {s i e r s'}, answer s i e = some (r,s') → env (world s) ⟨i,e,r⟩ (world s'))
    {turns : List (ℕ × ℕ)} {c c' : Config S R α} {tr : Trace R}
    (h : rehearse answer turns c = some (tr,c')) :
    Run env ⟨world c.world,c.calls⟩ tr ⟨world c'.world,c'.calls⟩ := by
  induction turns generalizing c tr with
  | nil =>
      obtain ⟨rfl,rfl⟩ : [] = tr ∧ c = c' := by simpa [rehearse] using h
      exact .nil
  | cons t turns ih =>
      obtain ⟨⟨tr₁,q,s⟩,hturn,hrest⟩ := Option.bind_eq_some_iff.mp h
      obtain ⟨⟨tr₂,c₂⟩,htail,heq⟩ := Option.map_eq_some_iff.mp hrest
      obtain ⟨rfl,rfl⟩ : tr₁ ++ tr₂ = tr ∧ c₂ = c' := by simpa using heq
      exact Run.append_iff.mpr ⟨_,turn_run hanswer hturn rfl,ih htail⟩

theorem plays_run
    (hanswer : ∀ {s i e r s'}, answer s i e = some (r,s') → env (world s) ⟨i,e,r⟩ (world s'))
    {turns : List (ℕ × ℕ)} {c : Config S R α} {good : Trace R → Config W R α → Bool}
    (h : plays answer world turns c good = true) :
    ∃ tr c', Run env ⟨world c.world,c.calls⟩ tr c' ∧ good tr c' = true := by
  obtain ⟨⟨tr,c'⟩,hc,hgood⟩ := (Option.any_eq_true ..).mp h
  exact ⟨tr,_,rehearse_run hanswer hc,hgood⟩

end Foundation
