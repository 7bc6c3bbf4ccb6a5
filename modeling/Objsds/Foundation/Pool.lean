import Objsds.Foundation.Program
import Mathlib.Data.List.Induction

namespace Foundation

variable {E : Type} {R : E → Type} {α W : Type}

structure Event (R : E → Type) where
  call : ℕ
  effect : E
  reply : R effect

abbrev Trace (R : E → Type) := List (Event R)

def Event.answer (ev : Event R) : Sigma R := ⟨ev.effect,ev.reply⟩

namespace Trace

def of (i : ℕ) (tr : Trace R) : List (Sigma R) :=
  (tr.filter (·.call = i)).map Event.answer

@[simp] theorem of_nil (i : ℕ) : of i ([] : Trace R) = [] := rfl

theorem of_append (i : ℕ) (tr tr' : Trace R) : of i (tr ++ tr') = of i tr ++ of i tr' := by
  simp [of]

theorem of_snoc_self (tr : Trace R) (ev : Event R) :
    of ev.call (tr ++ [ev]) = of ev.call tr ++ [ev.answer] := by
  simp [of]

theorem of_snoc_other {i : ℕ} (tr : Trace R) {ev : Event R} (h : ev.call ≠ i) :
    of i (tr ++ [ev]) = of i tr := by
  simp [of,h]

theorem mem_of {i : ℕ} {tr : Trace R} {x : Sigma R} :
    x ∈ of i tr ↔ ∃ ev ∈ tr, ev.call = i ∧ ev.answer = x := by
  simp [of,and_assoc]

theorem of_mid_inv {i : ℕ} {tr : Trace R} {h h' : List (Sigma R)} {x : Sigma R}
    (hof : of i tr = h ++ x :: h') :
    ∃ tr₁ ev tr₂, tr = tr₁ ++ ev :: tr₂ ∧ ev.call = i ∧ ev.answer = x ∧ of i tr₁ = h ∧
      of i tr₂ = h' := by
  obtain ⟨xs,ys,hxy,hxs,hys⟩ := List.map_eq_append_iff.mp hof
  obtain ⟨ev,ys,rfl,hev,hys⟩ := List.map_eq_cons_iff.mp hys
  obtain ⟨tr₁,rest,rfl,rfl,hrest⟩ := List.filter_eq_append_iff.mp hxy
  obtain ⟨others,tr₂,rfl,hothers,hcall,rfl⟩ := List.filter_eq_cons_iff.mp hrest
  have hnone : others.filter (·.call = i) = [] := List.filter_eq_nil_iff.mpr hothers
  refine ⟨tr₁ ++ others,ev,tr₂,by simp,by simpa using hcall,hev,?_,hys⟩
  rw [of,List.filter_append,hnone,List.append_nil,hxs]

theorem of_snoc_inv {i : ℕ} {tr : Trace R} {h : List (Sigma R)} {x : Sigma R}
    (hof : of i tr = h ++ [x]) :
    ∃ tr₁ ev tr₂, tr = tr₁ ++ ev :: tr₂ ∧ ev.call = i ∧ ev.answer = x ∧ of i tr₁ = h := by
  obtain ⟨tr₁,ev,tr₂,htr,hi,hx,hh,-⟩ := of_mid_inv hof
  exact ⟨tr₁,ev,tr₂,htr,hi,hx,hh⟩

theorem split_cases {tr₁ tr₂ tr₃ tr₄ : Trace R} {e e' : Event R}
    (h : tr₁ ++ e :: tr₂ = tr₃ ++ e' :: tr₄) :
    (tr₁ = tr₃ ∧ e = e') ∨ (∃ mid, tr₃ = tr₁ ++ e :: mid) ∨ ∃ mid, tr₁ = tr₃ ++ e' :: mid := by
  rcases List.append_eq_append_iff.mp h with ⟨m,h₁,h₂⟩ | ⟨m,h₁,h₂⟩
  · cases m with
    | nil => exact .inl ⟨by simpa using h₁.symm,(List.cons.inj h₂).1⟩
    | cons x m =>
        obtain ⟨rfl,-⟩ := List.cons.inj h₂
        exact .inr (.inl ⟨m,h₁⟩)
  · cases m with
    | nil => exact .inl ⟨by simpa using h₁,(List.cons.inj h₂).1.symm⟩
    | cons x m =>
        obtain ⟨rfl,-⟩ := List.cons.inj h₂
        exact .inr (.inr ⟨m,h₁⟩)

def collect {β : Type} (f : Trace R → Event R → Option β) : Trace R → Trace R → List β
  | _, [] => []
  | past, ev :: rest => (f past ev).toList ++ collect f (past ++ [ev]) rest

section Collect

variable {β : Type} {f : Trace R → Event R → Option β}

theorem collect_append (past tr tr' : Trace R) :
    collect f past (tr ++ tr') = collect f past tr ++ collect f (past ++ tr) tr' := by
  induction tr generalizing past with
  | nil => simp [collect]
  | cons ev tr ih => simp [collect,ih]

theorem collect_snoc (tr : Trace R) (ev : Event R) :
    collect f [] (tr ++ [ev]) = collect f [] tr ++ (f tr ev).toList := by
  rw [collect_append]
  simp [collect]

theorem mem_collect {x : β} {tr : Trace R} :
    x ∈ collect f [] tr ↔ ∃ tr₁ ev tr₂, tr = tr₁ ++ ev :: tr₂ ∧ f tr₁ ev = some x := by
  induction tr using List.reverseRecOn with
  | nil => simp [collect]
  | append_singleton tr ev ih =>
      rw [collect_snoc,List.mem_append,ih,Option.mem_toList]
      constructor
      · rintro (⟨tr₁,e,tr₂,rfl,he⟩ | he)
        · exact ⟨tr₁,e,tr₂ ++ [ev],by simp,he⟩
        · exact ⟨tr,ev,[],rfl,he⟩
      · rintro ⟨tr₁,e,tr₂,htr,he⟩
        rcases List.eq_nil_or_concat tr₂ with rfl | ⟨tr₂,e',rfl⟩
        · obtain ⟨rfl,h⟩ := List.append_inj' htr rfl
          obtain rfl := List.singleton_inj.mp h
          exact .inr he
        · rw [List.concat_eq_append,← List.cons_append,← List.append_assoc] at htr
          exact .inl ⟨tr₁,e,tr₂,(List.append_inj' htr rfl).1,he⟩

theorem collect_congr {g : Trace R → Event R → Option β} {tr : Trace R}
    (h : ∀ tr₁ ev tr₂, tr = tr₁ ++ ev :: tr₂ → f tr₁ ev = g tr₁ ev) :
    collect f [] tr = collect g [] tr := by
  induction tr using List.reverseRecOn with
  | nil => rfl
  | append_singleton tr ev ih =>
      rw [collect_snoc,collect_snoc,h tr ev [] rfl]
      refine congrArg (· ++ _) (ih ?_)
      intro tr₁ e tr₂ htr
      exact h tr₁ e (tr₂ ++ [ev]) (by simp [htr])

end Collect

end Trace

structure Config (W : Type) (R : E → Type) (α : Type) where
  world : W
  calls : ℕ → Program R α

inductive Step (env : W → Event R → W → Prop) : Config W R α → Event R → Config W R α → Prop
  | perform {c : Config W R α} {ev : Event R} {next : R ev.effect → Program R α} {w : W} :
      c.calls ev.call = .perform ev.effect next → env c.world ev w →
      Step env c ev ⟨w,Function.update c.calls ev.call (next ev.reply)⟩

inductive Run (env : W → Event R → W → Prop) (c : Config W R α) :
    Trace R → Config W R α → Prop
  | nil : Run env c [] c
  | snoc {tr : Trace R} {ev : Event R} {m c' : Config W R α} :
      Run env c tr m → Step env m ev c' → Run env c (tr ++ [ev]) c'

section Steps

variable {env : W → Event R → W → Prop} {c c' : Config W R α} {ev : Event R}

theorem Step.world (h : Step env c ev c') : env c.world ev c'.world := by
  cases h with
  | perform _ he => exact he

theorem Step.caller (h : Step env c ev c') :
    ∃ next, c.calls ev.call = .perform ev.effect next ∧ c'.calls ev.call = next ev.reply := by
  cases h with
  | perform hc _ => exact ⟨_,hc,Function.update_self ..⟩

theorem Step.others (h : Step env c ev c') {i : ℕ} (hi : ev.call ≠ i) :
    c'.calls i = c.calls i := by
  cases h with
  | perform _ _ => exact Function.update_of_ne (Ne.symm hi) ..

end Steps

namespace Run

variable {env : W → Event R → W → Prop} {c c' : Config W R α} {tr : Trace R}

theorem nil_iff : Run env c [] c' ↔ c' = c := by
  constructor
  · intro h
    generalize ht : ([] : Trace R) = t at h
    cases h with
    | nil => rfl
    | snoc _ _ => simp at ht
  · rintro rfl
    exact .nil

theorem snoc_iff {ev : Event R} :
    Run env c (tr ++ [ev]) c' ↔ ∃ m, Run env c tr m ∧ Step env m ev c' := by
  constructor
  · intro h
    generalize ht : tr ++ [ev] = t at h
    cases h with
    | nil => simp at ht
    | snoc hr hs =>
        obtain ⟨rfl,he⟩ := List.append_inj' ht rfl
        obtain rfl : ev = _ := List.singleton_inj.mp he
        exact ⟨_,hr,hs⟩
  · rintro ⟨m,hr,hs⟩
    exact .snoc hr hs

theorem append_iff {tr' : Trace R} :
    Run env c (tr ++ tr') c' ↔ ∃ m, Run env c tr m ∧ Run env m tr' c' := by
  induction tr' using List.reverseRecOn generalizing c' with
  | nil => simp [nil_iff]
  | append_singleton tr' ev ih =>
      rw [← List.append_assoc,snoc_iff]
      simp only [ih,snoc_iff]
      constructor
      · rintro ⟨m,⟨n,hn,hm⟩,hs⟩
        exact ⟨n,hn,m,hm,hs⟩
      · rintro ⟨n,hn,m,hm,hs⟩
        exact ⟨m,⟨n,hn,hm⟩,hs⟩

theorem split {tr₁ tr₂ : Trace R} {ev : Event R} (h : Run env c (tr₁ ++ ev :: tr₂) c') :
    ∃ m m', Run env c tr₁ m ∧ Step env m ev m' ∧ Run env m' tr₂ c' := by
  rw [List.append_cons] at h
  obtain ⟨m',hm',hr⟩ := append_iff.mp h
  obtain ⟨m,hm,hs⟩ := snoc_iff.mp hm'
  exact ⟨m,m',hm,hs,hr⟩

theorem cons {ev : Event R} {m : Config W R α} (hs : Step env c ev m) (h : Run env m tr c') :
    Run env c (ev :: tr) c' :=
  append_iff.mpr ⟨m,.snoc .nil hs,h⟩

theorem only {P : ℕ → E → Prop} (h : Run env c tr c') (hc : ∀ i, (c.calls i).Only (P i)) :
    (∀ ev ∈ tr, P ev.call ev.effect) ∧ ∀ i, (c'.calls i).Only (P i) := by
  induction h with
  | nil => exact ⟨by simp,hc⟩
  | @snoc tr ev m c' _ hs ih =>
      obtain ⟨htr,hm⟩ := ih
      cases hs with
      | @perform next w hp _ =>
          have hev : (Program.perform ev.effect next).Only (P ev.call) := hp ▸ hm ev.call
          refine ⟨?_,fun i => ?_⟩
          · intro e he
            rcases List.mem_append.mp he with he | he
            · exact htr e he
            · rw [List.mem_singleton.mp he]
              exact hev.1
          · by_cases hi : i = ev.call
            · subst hi
              simpa using hev.2 ev.reply
            · simpa [hi] using hm i

theorem follows (h : Run env c tr c') (i : ℕ) :
    (c.calls i).Follows (Trace.of i tr) (c'.calls i) := by
  induction h with
  | nil => exact .refl _
  | @snoc tr ev m c' hr hs ih =>
      by_cases hi : ev.call = i
      · subst hi
        obtain ⟨next,hp,hn⟩ := hs.caller
        rw [Trace.of_snoc_self]
        exact Program.follows_snoc.mpr ⟨next,hp ▸ ih,hn⟩
      · rw [Trace.of_snoc_other tr hi,hs.others hi]
        exact ih

theorem of_follows {q : ℕ → Program R α} {w : ℕ → W} {tr : Trace R}
    (hw : ∀ n (h : n < tr.length), env (w n) (tr.get ⟨n,h⟩) (w (n + 1))) (hw₀ : w 0 = c.world)
    (hf : ∀ i, (c.calls i).Follows (Trace.of i tr) (q i)) : Run env c tr ⟨w tr.length,q⟩ := by
  induction tr using List.reverseRecOn generalizing q with
  | nil =>
      have hq : q = c.calls := funext (fun i => Program.follows_nil.mp (hf i))
      rw [hq,List.length_nil,hw₀]
      exact .nil
  | append_singleton tr ev ih =>
      have hev := hf ev.call
      rw [Trace.of_snoc_self] at hev
      obtain ⟨next,hnext,hq⟩ := Program.follows_snoc.mp hev
      have hrun : Run env c tr ⟨w tr.length,Function.update q ev.call (.perform ev.effect next)⟩ := by
        refine ih (fun n h => ?_) (fun i => ?_)
        · have hn := hw n (by simp; omega)
          simpa [List.getElem_append_left h] using hn
        · by_cases hi : i = ev.call
          · subst hi
            simpa using hnext
          · have := hf i
            rw [Trace.of_snoc_other tr (Ne.symm hi)] at this
            simpa [hi] using this
      have hworld := hw tr.length (by simp)
      simp only [List.get_eq_getElem,List.getElem_append_right (Nat.le_refl _),Nat.sub_self,
        List.getElem_cons_zero] at hworld
      have hstep := @Step.perform _ _ _ _ env
        ⟨w tr.length,Function.update q ev.call (.perform ev.effect next)⟩ ev next
        (w (tr.length + 1)) (Function.update_self ..) hworld
      have hcalls : Function.update (Function.update q ev.call (.perform ev.effect next)) ev.call
          (next ev.reply) = q := by
        rw [Function.update_idem,← hq,Function.update_eq_self]
      rw [hcalls] at hstep
      simpa using hrun.snoc hstep

theorem world_invariant {I : W → Prop} (hstep : ∀ {w ev w'}, env w ev w' → I w → I w')
    (h : Run env c tr c') (hi : I c.world) : I c'.world := by
  induction h with
  | nil => exact hi
  | snoc _ hs ih => exact hstep hs.world ih

theorem done_stays (h : Run env c tr c') {i : ℕ} {a : α} (hd : c.calls i = .done a) :
    c'.calls i = .done a := by
  have hf := h.follows i
  rw [hd] at hf
  exact (Program.follows_done.mp hf).2

theorem done_early {c₁ : Config W R α} {tr' : Trace R} (h : Run env c (tr ++ tr') c')
    (h₁ : Run env c tr c₁) {i : ℕ} {a : α} (hd : c₁.calls i = .done a) : c'.calls i = .done a := by
  have hf := h.follows i
  rw [Trace.of_append] at hf
  obtain ⟨q,hq,hlate⟩ := Program.follows_append.mp hf
  rw [← (h₁.follows i).unique hq,hd] at hlate
  exact (Program.follows_done.mp hlate).2

theorem own_one (h : Run env c tr c') {i : ℕ} {x : Sigma R} (hof : Trace.of i tr = [x]) :
    ∃ tr₁ ev tr₂ m m', tr = tr₁ ++ ev :: tr₂ ∧ ev.call = i ∧ ev.answer = x ∧ Run env c tr₁ m ∧
      Step env m ev m' := by
  have hof : Trace.of i tr = [] ++ [x] := hof
  obtain ⟨tr₁,ev,tr₂,rfl,hi,hx,-⟩ := Trace.of_snoc_inv hof
  obtain ⟨m,m',hm,hs,-⟩ := h.split
  exact ⟨tr₁,ev,tr₂,m,m',rfl,hi,hx,hm,hs⟩

theorem own_two (h : Run env c tr c') {i : ℕ} {x y : Sigma R} (hof : Trace.of i tr = [x,y]) :
    ∃ tr₁ ev tr₂ ev' tr₃ m m' n n', tr = tr₁ ++ ev :: (tr₂ ++ ev' :: tr₃) ∧ ev.call = i ∧
      ev'.call = i ∧ ev.answer = x ∧ ev'.answer = y ∧ Run env c tr₁ m ∧ Step env m ev m' ∧
      Run env m' tr₂ n ∧ Step env n ev' n' := by
  have hof : Trace.of i tr = [x] ++ [y] := hof
  obtain ⟨tr',ev',tr₃,rfl,hi',hy,hx⟩ := Trace.of_snoc_inv hof
  obtain ⟨n,n',hn,hs',-⟩ := h.split
  have hx : Trace.of i tr' = [] ++ [x] := hx
  obtain ⟨tr₁,ev,tr₂,rfl,hi,hx,-⟩ := Trace.of_snoc_inv hx
  obtain ⟨m,m',hm,hs,hr⟩ := hn.split
  exact ⟨tr₁,ev,tr₂,ev',tr₃,m,m',n,n',by simp,hi,hi',hx,hy,hm,hs,hr,hs'⟩

theorem mono {env' : W → Event R → W → Prop}
    (hle : ∀ {w ev w'}, env w ev w' → env' w ev w') (h : Run env c tr c') :
    Run env' c tr c' := by
  induction h with
  | nil => exact .nil
  | snoc _ hs ih =>
      cases hs with
      | perform hc he => exact ih.snoc (.perform hc (hle he))

end Run

end Foundation
