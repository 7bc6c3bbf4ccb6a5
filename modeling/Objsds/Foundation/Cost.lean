import Mathlib
import Objsds.Foundation.Pool

namespace Foundation

variable {E : Type} {R : E → Type} {α β W : Type} {w : E → ℕ}

def Program.Within (w : E → ℕ) : Program R α → ℕ → Prop
  | .done _, _ => True
  | .perform e next, k => ∃ m, k = w e + m ∧ ∀ r, (next r).Within w m

abbrev Program.Takes (p : Program R α) (k : ℕ) : Prop := p.Within (fun _ => 1) k

def Trace.cost (w : E → ℕ) (tr : Trace R) : ℕ := (tr.map (fun ev => w ev.effect)).sum

namespace Program.Within

variable {p q : Program R α} {k m : ℕ}

theorem mono (h : p.Within w k) (hk : k ≤ m) : p.Within w m := by
  induction p generalizing k m with
  | done a => trivial
  | perform e next ih =>
      obtain ⟨n,rfl,hn⟩ := h
      exact ⟨m - w e,by omega,fun r => ih r (hn r) (by omega)⟩

theorem perform {e : E} {f : R e → Program R α} (he : w e ≤ k) (h : ∀ r, (f r).Within w m) :
    (Program.perform e f).Within w (k + m) :=
  ⟨k - w e + m,by omega,fun r => (h r).mono (by omega)⟩

theorem bind {f : α → Program R β} (h : p.Within w k) (hf : ∀ a, (f a).Within w m) :
    (p >>= f).Within w (k + m) := by
  induction p generalizing k with
  | done a => exact (hf a).mono (Nat.le_add_left ..)
  | perform e next ih =>
      obtain ⟨n,rfl,hn⟩ := h
      exact ⟨n + m,by omega,fun r => ih r (hn r)⟩

theorem map {f : α → β} (h : p.Within w k) : (f <$> p).Within w k := by
  rw [map_eq_pure_bind]
  exact h.bind (m := 0) (fun _ => trivial)

theorem bindExcept {ε : Type} {x : ExceptT ε (Program R) α} {f : α → ExceptT ε (Program R) β}
    (hx : x.run.Within w k) (hf : ∀ a, (f a).run.Within w m) : (x >>= f).run.Within w (k + m) := by
  rw [ExceptT.run_bind]
  refine hx.bind (fun r => ?_)
  cases r with
  | ok a => exact hf a
  | error e => trivial

theorem adapt {ε ε' : Type} {x : ExceptT ε (Program R) α} (wrap : ε → ε') (hx : x.run.Within w k) :
    (ExceptT.adapt wrap x).run.Within w k :=
  map hx

theorem follows {h : List (Sigma R)} (hp : p.Within w k) (hf : p.Follows h q) :
    (h.map (fun x => w x.1)).sum ≤ k := by
  induction hf generalizing k with
  | refl p => exact Nat.zero_le _
  | step _ ih =>
      obtain ⟨m,rfl,hm⟩ := hp
      rw [List.map_cons,List.sum_cons]
      exact Nat.add_le_add_left (ih (hm _)) _

end Program.Within

theorem Program.Takes.request {e : E} {f : R e → Program R α} {k : ℕ} (h : ∀ r, (f r).Takes k) :
    (Program.perform e f).Takes (k + 1) :=
  ⟨k,Nat.add_comm ..,h⟩

section Runs

variable {env : W → Event R → W → Prop} {c c' : Config W R α} {tr : Trace R}

theorem Run.of_cost_le (h : Run env c tr c') {i k : ℕ} (hi : (c.calls i).Within w k) :
    ((Trace.of i tr).map (fun x => w x.1)).sum ≤ k :=
  hi.follows (h.follows i)

theorem Run.of_countP_le (h : Run env c tr c') {i k : ℕ} {p : E → Bool}
    (hi : (c.calls i).Within (fun e => (p e).toNat) k) :
    (Trace.of i tr).countP (fun x => p x.1) ≤ k := by
  have hsum : ∀ xs : List (Sigma R),
      xs.countP (fun x => p x.1) = (xs.map (fun x => (p x.1).toNat)).sum := by
    intro xs
    induction xs with
    | nil => rfl
    | cons x xs ih => cases hx : p x.1 <;> simp [hx,ih,Nat.add_comm]
  rw [hsum]
  exact h.of_cost_le hi

theorem Trace.cost_eq_sum {n : ℕ} (h : ∀ ev ∈ tr, ev.call < n) :
    Trace.cost w tr = ∑ i ∈ Finset.range n, ((Trace.of i tr).map (fun x => w x.1)).sum := by
  induction tr with
  | nil => simp [Trace.cost,Trace.of]
  | cons ev tr ih =>
      have hev : ev.call < n := h ev (by simp)
      have hrest := ih (fun e he => h e (by simp [he]))
      have hsplit : ∀ i, ((Trace.of i (ev :: tr)).map (fun x => w x.1)).sum =
          (if i = ev.call then w ev.effect else 0) + ((Trace.of i tr).map (fun x => w x.1)).sum := by
        intro i
        rw [← List.singleton_append,Trace.of_append,List.map_append,List.sum_append]
        by_cases hi : i = ev.call
        · subst hi
          simp [Trace.of,Event.answer]
        · have hne : ev.call ≠ i := fun he => hi he.symm
          simp [Trace.of,hi,hne]
      rw [Finset.sum_congr rfl (fun i _ => hsplit i),Finset.sum_add_distrib,← hrest]
      simp [Trace.cost,hev]

theorem Run.cost_le (h : Run env c tr c') {n : ℕ} {k : ℕ → ℕ} (hn : ∀ ev ∈ tr, ev.call < n)
    (hk : ∀ i < n, (c.calls i).Within w (k i)) :
    Trace.cost w tr ≤ ∑ i ∈ Finset.range n, k i := by
  rw [Trace.cost_eq_sum hn]
  exact Finset.sum_le_sum (fun i hi => h.of_cost_le (hk i (Finset.mem_range.mp hi)))

theorem Trace.cost_one (tr : Trace R) : Trace.cost (fun _ => 1) tr = tr.length := by
  simp [Trace.cost]

end Runs

end Foundation
