import Mathlib.Data.List.Forall2
import Mathlib.Data.List.ReduceOption
import Objsds.Foundation.Pool

namespace Foundation

variable {E : Type} {R : E → Type} {σ Op Out : Type}

def replay (apply : σ → Op → σ × Out) : σ → List Op → σ × List Out
  | s, [] => (s,[])
  | s, op :: ops =>
      let rest := replay apply (apply s op).1 ops
      (rest.1,(apply s op).2 :: rest.2)

theorem replay_snoc (apply : σ → Op → σ × Out) (s : σ) (ops : List Op) (op : Op) :
    replay apply s (ops ++ [op]) =
      ((apply (replay apply s ops).1 op).1,
        (replay apply s ops).2 ++ [(apply (replay apply s ops).1 op).2]) := by
  induction ops generalizing s with
  | nil => rfl
  | cons a ops ih => simp [replay,ih]

-- `points` lists the instant (a position in the trace) at which each call takes effect. The
-- instant is a step of the call itself, so it lies between its first step and its return.
structure Linearization (apply : σ → Op → σ × Out) (s : σ) (ops : ℕ → Op) (isStep : E → Prop)
    (tr : Trace R) (out : ℕ → Option Out) (points : List (ℕ × ℕ)) : Prop where
  ordered : points.Pairwise (fun p q => p.1 < q.1)
  once : (points.map Prod.snd).Nodup
  own : ∀ p ∈ points, ∃ ev, tr[p.1]? = some ev ∧ ev.call = p.2 ∧ isStep ev.effect
  complete : ∀ i o, out i = some o → i ∈ points.map Prod.snd
  results : (replay apply s (points.map (fun p => ops p.2))).2.map some =
    points.map (fun p => out p.2)

def stateBefore (apply : σ → Op → σ × Out) (s : σ) (ops : ℕ → Op) (points : List (ℕ × ℕ))
    (n : ℕ) : σ :=
  (replay apply s ((points.filter (·.1 < n)).map (fun p => ops p.2))).1

namespace Linearization

variable {apply : σ → Op → σ × Out} {s : σ} {ops : ℕ → Op} {isStep : E → Prop}
  {tr : Trace R} {out out' : ℕ → Option Out} {points : List (ℕ × ℕ)} {ev : Event R}

theorem empty (hout : ∀ i, out i = none) :
    Linearization apply s ops isStep ([] : Trace R) out [] where
  ordered := .nil
  once := .nil
  own := by simp
  complete := fun i o h => by simp [hout i] at h
  results := rfl

theorem lt_length (h : Linearization apply s ops isStep tr out points) {p : ℕ × ℕ}
    (hp : p ∈ points) : p.1 < tr.length := by
  obtain ⟨ev,hev,-⟩ := h.own p hp
  exact (List.getElem?_eq_some_iff.mp hev).1

theorem out_isSome (h : Linearization apply s ops isStep tr out points) {p : ℕ × ℕ}
    (hp : p ∈ points) : ∃ o, out p.2 = some o := by
  have hm : out p.2 ∈ points.map (fun p => out p.2) := List.mem_map.mpr ⟨p,hp,rfl⟩
  rw [← h.results] at hm
  obtain ⟨o,-,ho⟩ := List.mem_map.mp hm
  exact ⟨o,ho.symm⟩

theorem own_snoc (h : Linearization apply s ops isStep tr out points) :
    ∀ p ∈ points, ∃ e, (tr ++ [ev])[p.1]? = some e ∧ e.call = p.2 ∧ isStep e.effect := by
  intro p hp
  obtain ⟨e,he,hc⟩ := h.own p hp
  exact ⟨e,by rw [List.getElem?_append_left (h.lt_length hp)]; exact he,hc⟩

theorem skip (h : Linearization apply s ops isStep tr out points) (hout : out' = out) :
    Linearization apply s ops isStep (tr ++ [ev]) out' points where
  ordered := h.ordered
  once := h.once
  own := h.own_snoc
  complete := hout ▸ h.complete
  results := hout ▸ h.results

theorem append (h : Linearization apply s ops isStep tr out points) (tr' : Trace R) :
    Linearization apply s ops isStep (tr ++ tr') out points := by
  induction tr' using List.reverseRecOn with
  | nil => simpa using h
  | append_singleton tr' ev ih =>
      rw [← List.append_assoc]
      exact ih.skip rfl

theorem extend (h : Linearization apply s ops isStep tr out points) (hs : isStep ev.effect)
    (hnew : out ev.call = none)
    (hcall : out' ev.call =
      some (apply (replay apply s (points.map (fun p => ops p.2))).1 (ops ev.call)).2)
    (hout : ∀ i, i ≠ ev.call → out' i = out i) :
    Linearization apply s ops isStep (tr ++ [ev]) out' (points ++ [(tr.length,ev.call)]) := by
  have hne : ∀ p ∈ points, p.2 ≠ ev.call := by
    intro p hp he
    obtain ⟨o,ho⟩ := h.out_isSome hp
    rw [he,hnew] at ho
    simp at ho
  constructor
  · refine List.pairwise_append.mpr ⟨h.ordered,List.pairwise_singleton ..,?_⟩
    intro p hp q hq
    rw [List.mem_singleton.mp hq]
    exact h.lt_length hp
  · rw [List.map_append,List.map_singleton]
    refine List.nodup_append.mpr ⟨h.once,by simp,?_⟩
    intro i hi j hj
    obtain ⟨p,hp,rfl⟩ := List.mem_map.mp hi
    rw [List.mem_singleton.mp hj]
    exact hne p hp
  · intro p hp
    rcases List.mem_append.mp hp with hp | hp
    · exact h.own_snoc p hp
    · rw [List.mem_singleton.mp hp]
      exact ⟨ev,by simp,rfl,hs⟩
  · intro i o hi
    rw [List.map_append,List.mem_append]
    by_cases he : i = ev.call
    · exact .inr (by simp [he])
    · exact .inl (h.complete i o (hout i he ▸ hi))
  · rw [List.map_append,List.map_singleton,replay_snoc]
    simp only [List.map_append,List.map_singleton,h.results,hcall]
    congr 1
    refine List.map_congr_left ?_
    intro p hp
    exact (hout p.2 (hne p hp)).symm

theorem stateBefore_snoc (points : List (ℕ × ℕ)) (i : ℕ) {k n : ℕ} (hn : n ≤ k) :
    stateBefore apply s ops (points ++ [(k,i)]) n = stateBefore apply s ops points n := by
  have hnot : ¬ k < n := by omega
  simp [stateBefore,List.filter_append,hnot]

theorem stateBefore_length (h : Linearization apply s ops isStep tr out points) {n : ℕ}
    (hn : tr.length ≤ n) :
    stateBefore apply s ops points n = (replay apply s (points.map (fun p => ops p.2))).1 := by
  have hf : points.filter (fun p => decide (p.1 < n)) = points := by
    refine List.filter_eq_self.mpr ?_
    intro p hp
    have := h.lt_length hp
    simp only [decide_eq_true_eq]
    omega
  simp [stateBefore,hf]

end Linearization

section Spread

variable {E' : Type} {R' : E' → Type} {marks : List (Option (Event R'))} {tr : Trace R}

theorem exists_spread (marks : List (Option (Event R'))) : ∃ f : ℕ → ℕ,
    (∀ j k, j < k → k < marks.reduceOption.length → f j < f k) ∧
      ∀ k a, marks.reduceOption[k]? = some a → marks[f k]? = some (some a) := by
  induction marks with
  | nil => exact ⟨id,by simp,by simp⟩
  | cons mark marks ih =>
      obtain ⟨f,hmono,hf⟩ := ih
      cases mark with
      | none => exact ⟨fun k => f k + 1,fun j k hjk hk => Nat.succ_lt_succ (hmono j k hjk hk),hf⟩
      | some a =>
          refine ⟨fun k => match k with | 0 => 0 | k + 1 => f k + 1,?_,?_⟩
          · intro j k hjk hk
            rw [List.reduceOption_cons_of_some,List.length_cons] at hk
            cases k with
            | zero => omega
            | succ k =>
                cases j with
                | zero => exact Nat.succ_pos _
                | succ j => exact Nat.succ_lt_succ (hmono j k (by omega) (by omega))
          · intro k b hk
            cases k with
            | zero =>
                obtain rfl := Option.some.inj hk
                rfl
            | succ k => exact hf k b hk

theorem Linearization.spread {apply : σ → Op → σ × Out} {s : σ} {ops : ℕ → Op} {isStep : E → Prop}
    {isStep' : E' → Prop} {out : ℕ → Option Out} {points : List (ℕ × ℕ)}
    (h : Linearization apply s ops isStep' marks.reduceOption out points)
    (hm : List.Forall₂ (fun ev mark => ∀ a ∈ mark,
      a.call = ev.call ∧ (isStep' a.effect → isStep ev.effect)) tr marks) :
    ∃ points', Linearization apply s ops isStep tr out points' ∧
      points'.map Prod.snd = points.map Prod.snd := by
  obtain ⟨f,hmono,hf⟩ := exists_spread marks
  have hsnd : (points.map (fun p => (f p.1,p.2))).map Prod.snd = points.map Prod.snd := by simp
  refine ⟨points.map (fun p => (f p.1,p.2)),⟨?_,?_,?_,?_,?_⟩,hsnd⟩
  · refine List.pairwise_map.mpr (h.ordered.imp_of_mem (fun _ hq hpq => ?_))
    exact hmono _ _ hpq (h.lt_length hq)
  · rw [hsnd]
    exact h.once
  · intro p hp
    obtain ⟨q,hq,rfl⟩ := List.mem_map.mp hp
    obtain ⟨a,ha,hcall,hstep⟩ := h.own q hq
    have hmark := hf q.1 a ha
    obtain ⟨hlt,hget⟩ := List.getElem?_eq_some_iff.mp hmark
    have hlen : f q.1 < tr.length := by rwa [hm.length_eq]
    obtain ⟨hown,hsettles⟩ := List.forall₂_iff_get.mp hm |>.2 (f q.1) hlen hlt a hget
    exact ⟨_,List.getElem?_eq_getElem hlen,hown.symm.trans hcall,hsettles hstep⟩
  · rw [hsnd]
    exact h.complete
  · rw [List.map_map,List.map_map]
    exact h.results

end Spread

end Foundation
