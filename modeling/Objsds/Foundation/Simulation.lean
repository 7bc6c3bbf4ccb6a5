import Mathlib.Data.List.Forall2
import Mathlib.Data.List.ReduceOption
import Objsds.Foundation.Pool

namespace Foundation

variable {E E' : Type} {R : E → Type} {R' : E' → Type} {W W' α β γ : Type}

-- Calls over `env` that are to behave like calls over `env'`: `inv` ties the two worlds
-- together, `guar i` bounds what a step of call `i` may do to them, and `shows` says which step
-- of the detailed call may stand for which event of the atomic one.
structure Simulation (R : E → Type) (R' : E' → Type) (W W' : Type) where
  env : W → Event R → W → Prop
  env' : W' → Event R' → W' → Prop
  inv : W → W' → Prop
  guar : ℕ → W → W' → W → W' → Prop
  shows : Event R → Option (Event R') → Prop

-- What a call knows of the two worlds and of what is left of its atomic counterpart.
abbrev Assertion (R' : E' → Type) (W W' β : Type) := W → W' → Program R' β → Prop

namespace Simulation

variable (S : Simulation R R' W W')

inductive Advance (i : ℕ) : W' → Program R' β → Option (Event R') → W' → Program R' β → Prop
  | silent {w' : W'} {q : Program R' β} : Advance i w' q none w' q
  | emit {w' w₁' : W'} {e : E'} {r : R' e} {next : R' e → Program R' β} :
      S.env' w' ⟨i,e,r⟩ w₁' → Advance i w' (.perform e next) (some ⟨i,e,r⟩) w₁' (next r)

def Stable (i : ℕ) (P : Assertion R' W W' β) : Prop :=
  ∀ j, j ≠ i → ∀ w w' w₁ w₁' q, S.inv w w' → S.inv w₁ w₁' → S.guar j w w' w₁ w₁' →
    P w w' q → P w₁ w₁' q

-- What is known of a result once its error is converted by `f`.
def Adapted {ε ε' : Type} (f : ε → ε') (M : Except ε α → Assertion R' W W' β) :
    Except ε' α → Assertion R' W W' β
  | .ok a => M (.ok a)
  | .error e' => fun w w' q => ∃ e, e' = f e ∧ M (.error e) w w' q

-- What the call knows before a request has to survive the steps of the others; what it knows
-- when it returns need only hold at that instant.
def Triple (i : ℕ) : Program R α → Assertion R' W W' β → (α → Assertion R' W W' β) → Prop
  | .done a, P, Q => ∀ w w' q, S.inv w w' → P w w' q → Q a w w' q
  | .perform e next, P, Q => ∃ P₀, S.Stable i P₀ ∧
      (∀ w w' q, S.inv w w' → P w w' q → P₀ w w' q) ∧
      ∀ w w' q, S.inv w w' → P₀ w w' q → ∀ r w₁, S.env w ⟨i,e,r⟩ w₁ →
        ∃ mark w₁' q₁ P', S.Advance i w' q mark w₁' q₁ ∧ S.shows ⟨i,e,r⟩ mark ∧
          S.inv w₁ w₁' ∧ S.guar i w w' w₁ w₁' ∧ P' w₁ w₁' q₁ ∧ Triple i (next r) P' Q

variable {S} {i : ℕ}

theorem Advance.own {w' w₁' : W'} {q q₁ : Program R' β} {mark : Option (Event R')}
    (h : S.Advance i w' q mark w₁' q₁) : ∀ a ∈ mark, a.call = i := by
  cases h with
  | silent => simp
  | emit => simp

namespace Stable

variable {P P' : Assertion R' W W' β}

theorem and (h : S.Stable i P) (h' : S.Stable i P') :
    S.Stable i (fun w w' q => P w w' q ∧ P' w w' q) :=
  fun j hj w w' w₁ w₁' q hi hi₁ hg hp =>
    ⟨h j hj w w' w₁ w₁' q hi hi₁ hg hp.1,h' j hj w w' w₁ w₁' q hi hi₁ hg hp.2⟩

theorem constant (P : Program R' β → Prop) :
    S.Stable i (fun (_ : W) (_ : W') (q : Program R' β) => P q) :=
  fun _ _ _ _ _ _ _ _ _ _ hp => hp

end Stable

namespace Triple

variable {P P₁ : Assertion R' W W' β} {Q Q₁ : α → Assertion R' W W' β}

theorem conseq {p : Program R α} (h : S.Triple i p P Q)
    (hp : ∀ w w' q, S.inv w w' → P₁ w w' q → P w w' q)
    (hq : ∀ a w w' q, S.inv w w' → Q a w w' q → Q₁ a w w' q) : S.Triple i p P₁ Q₁ := by
  induction p generalizing P P₁ with
  | done a => exact fun w w' q hi h₁ => hq a w w' q hi (h w w' q hi (hp w w' q hi h₁))
  | perform e next ih =>
      obtain ⟨P₀,hst,h₀,hs⟩ := h
      refine ⟨P₀,hst,fun w w' q hi h₁ => h₀ w w' q hi (hp w w' q hi h₁),?_⟩
      intro w w' q hi h₁ r w₁ henv
      obtain ⟨mark,w₁',q₁,P',ha,hsh,hi₁,hg,hp',ht⟩ := hs w w' q hi h₁ r w₁ henv
      exact ⟨mark,w₁',q₁,P',ha,hsh,hi₁,hg,hp',ih r ht (fun _ _ _ _ h => h)⟩

theorem pre {p : Program R α} (h : S.Triple i p P Q)
    (hp : ∀ w w' q, S.inv w w' → P₁ w w' q → P w w' q) : S.Triple i p P₁ Q :=
  h.conseq hp (fun _ _ _ _ _ hq => hq)

theorem post {p : Program R α} (h : S.Triple i p P Q)
    (hq : ∀ a w w' q, S.inv w w' → Q a w w' q → Q₁ a w w' q) : S.Triple i p P Q₁ :=
  h.conseq (fun _ _ _ _ hp => hp) hq

theorem bind {p : Program R γ} {f : γ → Program R α} {M : γ → Assertion R' W W' β}
    (h : S.Triple i p P M) (hf : ∀ a, S.Triple i (f a) (M a) Q) : S.Triple i (p >>= f) P Q := by
  induction p generalizing P with
  | done a => exact (hf a).pre h
  | perform e next ih =>
      obtain ⟨P₀,hst,h₀,hs⟩ := h
      refine ⟨P₀,hst,h₀,?_⟩
      intro w w' q hi hp r w₁ henv
      obtain ⟨mark,w₁',q₁,P',ha,hsh,hi₁,hg,hp',ht⟩ := hs w w' q hi hp r w₁ henv
      exact ⟨mark,w₁',q₁,P',ha,hsh,hi₁,hg,hp',ih r ht⟩

theorem map {p : Program R γ} {f : γ → α} {M : γ → Assertion R' W W' β} (h : S.Triple i p P M)
    (hf : ∀ a w w' q, S.inv w w' → M a w w' q → Q (f a) w w' q) : S.Triple i (f <$> p) P Q := by
  rw [map_eq_pure_bind]
  exact h.bind hf

theorem vacuous {p : Program R α} (h : ∀ w w' q, ¬ P w w' q) : S.Triple i p P Q := by
  cases p with
  | done a => exact fun w w' q _ hp => absurd hp (h w w' q)
  | perform e next =>
      refine ⟨fun _ _ _ => False,fun _ _ _ _ _ _ _ _ _ _ hp => hp,?_,?_⟩
      · exact fun w w' q _ hp => h w w' q hp
      · exact fun _ _ _ _ hp => hp.elim

theorem assume {φ : Prop} {p : Program R α} (hφ : ∀ w w' q, P w w' q → φ)
    (h : φ → S.Triple i p P Q) : S.Triple i p P Q := by
  by_cases hx : φ
  · exact h hx
  · exact vacuous (fun w w' q hp => hx (hφ w w' q hp))

theorem bindExcept {ε : Type} {x : ExceptT ε (Program R) γ} {f : γ → ExceptT ε (Program R) α}
    {M : Except ε γ → Assertion R' W W' β} {Q : Except ε α → Assertion R' W W' β}
    (h : S.Triple i x.run P M) (hok : ∀ a, S.Triple i (f a).run (M (.ok a)) Q)
    (herr : ∀ e w w' q, S.inv w w' → M (.error e) w w' q → Q (.error e) w w' q) :
    S.Triple i (x >>= f).run P Q := by
  rw [ExceptT.run_bind]
  refine h.bind (fun a => ?_)
  cases a with
  | ok a => exact hok a
  | error e => exact herr e

theorem adapt {ε ε' : Type} {x : ExceptT ε (Program R) α} {M : Except ε α → Assertion R' W W' β}
    (h : S.Triple i x.run P M) (f : ε → ε') :
    S.Triple i (ExceptT.adapt f x).run P (Adapted f M) := by
  refine h.map (fun r w w' q _ hr => ?_)
  cases r with
  | ok a => exact hr
  | error e => exact ⟨e,rfl,hr⟩

theorem step {e : E} {next : R e → Program R α} (M : R e → Assertion R' W W' β)
    (hp : S.Stable i P)
    (h : ∀ w w' q r w₁, S.inv w w' → P w w' q → S.env w ⟨i,e,r⟩ w₁ →
      ∃ mark w₁' q₁, S.Advance i w' q mark w₁' q₁ ∧ S.shows ⟨i,e,r⟩ mark ∧ S.inv w₁ w₁' ∧
        S.guar i w w' w₁ w₁' ∧ M r w₁ w₁' q₁)
    (hn : ∀ r, S.Triple i (next r) (M r) Q) : S.Triple i (.perform e next) P Q := by
  refine ⟨P,hp,fun _ _ _ _ h => h,?_⟩
  intro w w' q hi hpre r w₁ henv
  obtain ⟨mark,w₁',q₁,ha,hsh,hi₁,hg,hq⟩ := h w w' q r w₁ hi hpre henv
  exact ⟨mark,w₁',q₁,M r,ha,hsh,hi₁,hg,hq,hn r⟩

end Triple

-- `F i a q` is what stays true of the atomic counterpart of a call that returned `a`.
structure Related (S : Simulation R R' W W') (Q : ℕ → α → Assertion R' W W' β)
    (F : ℕ → α → Program R' β → Prop) (c : Config W R α) (c' : Config W' R' β) : Prop where
  inv : S.inv c.world c'.world
  calls : ∀ i, (∃ P, S.Stable i P ∧ P c.world c'.world (c'.calls i) ∧
    S.Triple i (c.calls i) P (Q i)) ∨ ∃ a, c.calls i = .done a ∧ F i a (c'.calls i)

-- Which event of the atomic run each step of the detailed run stands for.
structure Marks (S : Simulation R R' W W') (tr : Trace R) (marks : List (Option (Event R'))) :
    Prop where
  shown : List.Forall₂ S.shows tr marks
  own : List.Forall₂ (fun ev mark => ∀ a ∈ mark, a.call = ev.call) tr marks

section Runs

variable {Q : ℕ → α → Assertion R' W W' β} {F : ℕ → α → Program R' β → Prop}
  {c m : Config W R α} {c' : Config W' R' β}

theorem Related.advance (hF : ∀ i a w w' q, S.inv w w' → Q i a w w' q → F i a q) {ev : Event R}
    (h : S.Related Q F c c') (hs : Step S.env c ev m) :
    ∃ mark m', S.Related Q F m m' ∧ S.shows ev mark ∧ (∀ a ∈ mark, a.call = ev.call) ∧
      Run S.env' c' mark.toList m' ∧ S.guar ev.call c.world c'.world m.world m'.world ∧
      ∀ a, m.calls ev.call = .done a → Q ev.call a m.world m'.world (m'.calls ev.call) := by
  cases hs with
  | @perform next w hc henv =>
      obtain ⟨P,hst,hp,ht⟩ : ∃ P, S.Stable ev.call P ∧ P c.world c'.world (c'.calls ev.call) ∧
          S.Triple ev.call (c.calls ev.call) P (Q ev.call) := by
        rcases h.calls ev.call with hP | ⟨a,ha,-⟩
        · exact hP
        · rw [hc] at ha
          simp at ha
      rw [hc] at ht
      obtain ⟨P₀,-,h₀,hstep⟩ := ht
      obtain ⟨mark,w₁',q₁,P',ha,hsh,hi,hg,hp',ht'⟩ :=
        hstep c.world c'.world _ h.inv (h₀ _ _ _ h.inv hp) ev.reply w henv
      refine ⟨mark,⟨w₁',Function.update c'.calls ev.call q₁⟩,⟨hi,fun k => ?_⟩,hsh,ha.own,?_,hg,?_⟩
      · by_cases hk : k = ev.call
        · subst hk
          simp only [Function.update_self]
          cases hn : next ev.reply with
          | done a =>
              rw [hn] at ht'
              exact .inr ⟨a,rfl,hF _ a _ _ _ hi (ht' _ _ _ hi hp')⟩
          | perform e' next' =>
              rw [hn] at ht'
              obtain ⟨P₁,hst₁,h₁,hs₁⟩ := ht'
              exact .inl ⟨P₁,hst₁,h₁ _ _ _ hi hp',P₁,hst₁,fun _ _ _ _ h => h,hs₁⟩
        · simp only [Function.update_of_ne hk]
          rcases h.calls k with ⟨P₂,hst₂,hp₂,ht₂⟩ | hd
          · exact .inl ⟨P₂,hst₂,hst₂ ev.call (Ne.symm hk) _ _ _ _ _ h.inv hi hg hp₂,ht₂⟩
          · exact .inr hd
      · generalize hq : c'.calls ev.call = q at ha
        cases ha with
        | silent =>
            rw [← hq,Function.update_eq_self]
            exact .nil
        | emit he => exact .snoc .nil (.perform hq he)
      · intro a hd
        simp only [Function.update_self] at hd ⊢
        rw [hd] at ht'
        exact ht' _ _ _ hi hp'

theorem Related.step (hF : ∀ i a w w' q, S.inv w w' → Q i a w w' q → F i a q) {ev : Event R}
    (h : S.Related Q F c c') (hs : Step S.env c ev m) :
    ∃ mark m', S.Related Q F m m' ∧ S.shows ev mark ∧ (∀ a ∈ mark, a.call = ev.call) ∧
      Run S.env' c' mark.toList m' ∧
      ∀ a, m.calls ev.call = .done a → Q ev.call a m.world m'.world (m'.calls ev.call) := by
  obtain ⟨mark,m',hrel,hsh,hown,hstep,-,hpost⟩ := h.advance hF hs
  exact ⟨mark,m',hrel,hsh,hown,hstep,hpost⟩

theorem Related.run (hF : ∀ i a w w' q, S.inv w w' → Q i a w w' q → F i a q) {tr : Trace R}
    (h : S.Related Q F c c') (hr : Run S.env c tr m) :
    ∃ marks m', S.Related Q F m m' ∧ S.Marks tr marks ∧ Run S.env' c' marks.reduceOption m' := by
  induction hr with
  | nil => exact ⟨[],c',h,⟨.nil,.nil⟩,.nil⟩
  | @snoc tr ev n m _ hs ih =>
      obtain ⟨marks,n',hn,hm,hr'⟩ := ih
      obtain ⟨mark,m',hrel,hsh,hown,hstep,-⟩ := hn.step hF hs
      refine ⟨marks ++ [mark],m',hrel,⟨?_,?_⟩,?_⟩
      · exact List.rel_append hm.shown (.cons hsh .nil)
      · exact List.rel_append hm.own (.cons hown .nil)
      · rw [List.reduceOption_append]
        refine Run.append_iff.mpr ⟨n',hr',?_⟩
        cases mark <;> exact hstep

end Runs

end Simulation

end Foundation
