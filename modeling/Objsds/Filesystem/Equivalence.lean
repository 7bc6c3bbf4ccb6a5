import Objsds.Filesystem.Refinement
import Objsds.Filesystem.Unhindered
import Objsds.Foundation.Linearization
import Objsds.Memory.Mirror

namespace Objsds

open Foundation FilesystemStore

namespace Filesystem

def Settles : Sys → Prop
  | .read _ => True
  | .syncDir _ => True
  | _ => False

def isSync : Sys → Bool
  | .syncDir _ => true
  | _ => false

-- Each write that is carried through syncs one directory.
def publications (tr : Trace SysReply) : ℕ := tr.countP (fun ev => isSync ev.effect)

def ask (q : Request) : Action StoreError Outcome :=
  .perform (.store q) (fun r => .done (q.outcome r))

theorem perform_ask (self : FilesystemStore) (q : Request) :
    self.perform (ask q) = q.outcome <$> self.serve q := by
  rw [map_eq_pure_bind]
  rfl

section Marks

variable {K : Setting} {s s' : Ideal.State} {a : Event (Reply StoreError)} {x : Sigma SysReply}

theorem shown_settles {q : Request} {r : q.Response StoreError}
    (h : Ideal.Step False s q r s') (hx : Shown K x ⟨.store q,r⟩) :
    Settles x.1 ∧ (mutation (⟨.store q,r⟩ : Sigma (Reply StoreError)) ≠ none → isSync x.1 = true) := by
  cases h with
  | got l | alreadyExists l b o hp | conflict l y b hs =>
      have hread : x.1 = .read (K.object l) := hx
      rw [hread]
      refine ⟨trivial,?_⟩
      simp [mutation,CreateReply.written,ReplaceReply.written]
  | created l b v ha hf | replaced l o b v hc hf =>
      obtain rfl := hx
      exact ⟨trivial,fun _ => rfl⟩
  | getFailed l e hf | createFailed l b e hf | createUncertain l b e v ha hf' hf
  | replaceFailed l y b e hf | replaceUncertain l o b e v hc hf' hf => exact hf.elim

theorem forall₂_snoc_inv {α β : Type} {R : α → β → Prop} {xs : List α} {ys : List β} {y : β}
    (h : List.Forall₂ R xs (ys ++ [y])) :
    ∃ xs' x, xs = xs' ++ [x] ∧ List.Forall₂ R xs' ys ∧ R x y := by
  induction ys generalizing xs with
  | nil =>
      cases h with
      | cons hxy hnil =>
          cases hnil
          exact ⟨[],_,rfl,.nil,hxy⟩
  | cons z ys ih =>
      cases h with
      | cons hxz hrest =>
          obtain ⟨xs',x,rfl,hxs,hx⟩ := ih hrest
          exact ⟨_ :: xs',x,rfl,.cons hxz hxs,hx⟩

end Marks

section Runs

variable {K : Setting} {rq : ℕ → Request} {tr : Trace SysReply}
  {marks : List (Option (Event (Reply StoreError)))}
  {m' : Config (Ideal.store StoreError False).State (Reply StoreError) Outcome}

abbrev vacant : Ideal.State := ⟨fun _ => none,[]⟩

theorem ask_follows {q : Request} {h : List (Sigma (Reply StoreError))}
    {p : Action StoreError Outcome} (hf : (ask q).Follows h p) :
    p = ask q ∨ ∃ o, p = .done o := by
  rcases Program.follows_perform.mp hf with ⟨-,rfl⟩ | ⟨r,h',-,hd⟩
  · exact .inl rfl
  · exact .inr ⟨_,(Program.follows_done.mp hd).2⟩

theorem asked_step {n : Config (Ideal.store StoreError False).State (Reply StoreError) Outcome}
    {T : Trace (Reply StoreError)} {a : Event (Reply StoreError)}
    (hr : Run (Ideal.store StoreError False).Env ⟨vacant,fun i => ask (rq i)⟩ T n)
    (hs : Step (Ideal.store StoreError False).Env n a m') :
    ∃ j r, a = ⟨j,.store (rq j),r⟩ ∧ Ideal.Step False n.world (rq j) r m'.world ∧
      n.calls j = ask (rq j) ∧ m'.calls j = .done ((rq j).outcome r) := by
  obtain ⟨next,hnext,hnext'⟩ := hs.caller
  have hworld := hs.world
  obtain ⟨j,e,r⟩ := a
  rcases ask_follows (hr.follows j) with hask | ⟨o,ho⟩
  · rw [hask] at hnext
    obtain ⟨rfl,hn⟩ := Program.perform.inj hnext
    obtain rfl := eq_of_heq hn
    cases hworld with
    | store hstep => exact ⟨j,r,rfl,hstep,hask,hnext'⟩
  · rw [ho] at hnext
    simp at hnext

def Faithful (K : Setting) (ev : Event SysReply) (mark : Option (Event (Reply StoreError))) :
    Prop :=
  (∀ a ∈ mark, Shown K ev.answer a.answer) ∧ ∀ a ∈ mark, a.call = ev.call

theorem reduce_snoc {mark : Option (Event (Reply StoreError))} :
    (marks ++ [mark]).reduceOption = marks.reduceOption ++ mark.toList := by
  rw [List.reduceOption_append,List.reduceOption_singleton]

theorem run_snoc {mark : Option (Event (Reply StoreError))}
    (h : Run (Ideal.store StoreError False).Env ⟨vacant,fun i => ask (rq i)⟩
      (marks ++ [mark]).reduceOption m') :
    ∃ n, Run (Ideal.store StoreError False).Env ⟨vacant,fun i => ask (rq i)⟩ marks.reduceOption n ∧
      ((mark = none ∧ m' = n) ∨ ∃ j r, mark = some ⟨j,.store (rq j),r⟩ ∧
        Ideal.Step False n.world (rq j) r m'.world ∧ n.calls j = ask (rq j) ∧
        m'.calls = Function.update n.calls j (.done ((rq j).outcome r))) := by
  rw [reduce_snoc] at h
  obtain ⟨n,hn,hlast⟩ := Run.append_iff.mp h
  refine ⟨n,hn,?_⟩
  cases mark with
  | none => exact .inl ⟨rfl,Run.nil_iff.mp hlast⟩
  | some a =>
      have hlast : Run (Ideal.store StoreError False).Env n ([] ++ [a]) m' := hlast
      obtain ⟨m,hm,hs⟩ := Run.snoc_iff.mp hlast
      obtain rfl := Run.nil_iff.mp hm
      obtain ⟨j,r,rfl,hstep,hask,hdone⟩ := asked_step hn hs
      refine .inr ⟨j,r,rfl,hstep,hask,?_⟩
      funext k
      by_cases hk : k = j
      · subst hk
        rw [Function.update_self,hdone]
      · rw [Function.update_of_ne hk]
        exact hs.others (Ne.symm hk)

theorem writes_le (hm : List.Forall₂ (Faithful K) tr marks)
    (hrun : Run (Ideal.store StoreError False).Env ⟨vacant,fun i => ask (rq i)⟩
      marks.reduceOption m') :
    (writes marks.reduceOption).length ≤ publications tr := by
  induction marks using List.reverseRecOn generalizing tr m' with
  | nil =>
      cases hm
      simp [writes]
  | append_singleton marks mark ih =>
      obtain ⟨tr,ev,rfl,hm',hev⟩ := forall₂_snoc_inv hm
      obtain ⟨n,hn,hlast⟩ := run_snoc hrun
      have hle := ih hm' hn
      rw [publications] at hle
      rw [reduce_snoc,writes_append,List.length_append,publications,List.countP_append,
        List.countP_singleton]
      rcases hlast with ⟨rfl,-⟩ | ⟨j,r,rfl,hstep,-,-⟩
      · exact Nat.add_le_add hle (by simp [writes])
      · obtain ⟨-,hsync⟩ := shown_settles hstep (hev.1 _ rfl)
        refine Nat.add_le_add hle ?_
        rw [Option.toList_some,writes_singleton]
        cases hmut : mutation (⟨.store (rq j),r⟩ : Sigma (Reply StoreError)) with
        | none => simp [Event.answer,hmut]
        | some v =>
            have hone : isSync ev.effect = true := hsync (by simp [hmut])
            simp [Event.answer,hmut,hone]

def told (ρ : Version → Version)
    (c : Config (Ideal.store StoreError False).State (Reply StoreError) Outcome) (i : ℕ) :
    Option Outcome :=
  match c.calls i with
  | .done o => some (o.rename ρ)
  | .perform _ _ => none

variable {ρ : Version → Version} {W : List Version}

theorem linearizes (hρ : Function.Injective ρ)
    (hW : ∀ k v, W[k]? = some v → ρ v = Memory.token (k + 1)) (hlen : W.length < 2 ^ 64)
    (hm : List.Forall₂ (Faithful K) tr marks)
    (hrun : Run (Ideal.store StoreError False).Env ⟨vacant,fun i => ask (rq i)⟩
      marks.reduceOption m') (hpre : writes marks.reduceOption <+: W) :
    ∃ points, Linearization Memory.answer Memory.State.default (fun i => (rq i).rename ρ) Settles tr
        (told ρ m') points ∧
      Memory.Mirrors ρ (writes marks.reduceOption).length m'.world
        (replay Memory.answer Memory.State.default (points.map (fun p => (rq p.2).rename ρ))).1 := by
  induction marks using List.reverseRecOn generalizing tr m' with
  | nil =>
      cases hm
      obtain rfl := Run.nil_iff.mp hrun
      exact ⟨[],.empty (fun _ => rfl),.default ρ⟩
  | append_singleton marks mark ih =>
      obtain ⟨tr,ev,rfl,hm',hev⟩ := forall₂_snoc_inv hm
      obtain ⟨n,hn,hlast⟩ := run_snoc hrun
      rw [reduce_snoc,writes_append] at hpre ⊢
      obtain ⟨points,hlin,hmirror⟩ := ih hm' hn ((List.prefix_append _ _).trans hpre)
      rcases hlast with ⟨rfl,rfl⟩ | ⟨j,r,rfl,hstep,hask,hcalls⟩
      · exact ⟨points,hlin.skip rfl,by simpa [writes] using hmirror⟩
      · obtain ⟨hsettles,-⟩ := shown_settles hstep (hev.1 _ rfl)
        have hj : j = ev.call := hev.2 _ rfl
        subst hj
        have hfresh : ∀ v, mutation (⟨.store (rq ev.call),r⟩ : Sigma (Reply StoreError)) = some v →
            ρ v = Memory.token ((writes marks.reduceOption).length + 1) ∧
              (writes marks.reduceOption).length + 1 < 2 ^ 64 := by
          intro v hv
          rw [Option.toList_some,writes_singleton,Event.answer,hv,Option.toList_some] at hpre
          refine ⟨hW _ v ?_,?_⟩
          · obtain ⟨rest,rfl⟩ := hpre
            simp
          · have := hpre.length_le
            simp only [List.length_append,List.length_singleton] at this
            omega
        obtain ⟨hanswer,hnext⟩ := hmirror.step hρ hstep hfresh
        refine ⟨points ++ [(tr.length,ev.call)],hlin.extend hsettles ?_ ?_ ?_,?_⟩
        · simp [told,hask,ask]
        · rw [told,hcalls,Function.update_self,hanswer]
        · intro i hi
          rw [told,told,hcalls,Function.update_of_ne hi]
        · rw [List.map_append,List.map_singleton,replay_snoc]
          rw [Option.toList_some,writes_singleton,List.length_append]
          exact hnext

theorem ask_serves {root : Path} {q : Request} (h : Structural q.location) :
    (layout root).Serves (ask q) := by
  refine ⟨?_,fun _ => trivial⟩
  rintro rq' he
  obtain rfl := Effect.store.inj he
  exact layout_expects root h

theorem filesystem_refines_memory {root : Path} {d : Disk} {c' : Config Disk SysReply Outcome}
    (hd : Pristine root d) (hq : ∀ i, Structural (rq i).location)
    (h : Run (Env False) ⟨d,fun i => (rq i).outcome <$> serve ⟨root⟩ (rq i)⟩ tr c')
    (hlt : publications tr < 2 ^ 64) :
    ∃ (ρ : Version → Version) (out : ℕ → Option Outcome) (points : List (ℕ × ℕ)),
      Function.Injective ρ ∧
      Linearization Memory.answer Memory.State.default (fun i => (rq i).rename ρ) Settles tr out
        points ∧
      (∀ i o, c'.calls i = .done o → out i = some (o.rename ρ)) ∧
      ∀ l, Structural l → (∀ i, ¬ c'.world.Holds (lockPath root l) i .exclusive) →
        ∃ o, (layout root).Shows c'.world l o ∧
          (replay Memory.answer Memory.State.default
            (points.map (fun p => (rq p.2).rename ρ))).1.objects l = o.map (Object.rename ρ) := by
  simp only [← perform_ask] at h
  obtain ⟨marks,m',hmarks,hrun,hinv,hdone⟩ := pool_refines (K := layout root) (layout_sound root)
    hd.inv hd.locks (fun i => ask_serves (hq i)) (fun hf => hf.elim) h
  have hfaithful : List.Forall₂ (Faithful (layout root)) tr marks :=
    List.Forall₂.mp (fun _ _ hs ho => ⟨hs,ho⟩) hmarks.shown hmarks.own
  obtain ⟨hnodup,-⟩ := Ideal.writes_fresh hrun
  have hinj : Function.Injective (fun k => Memory.token (k + 1)) := by
    intro k k' he
    have := Memory.token_injective he
    omega
  obtain ⟨ρ,hρ⟩ := exists_renaming hnodup hinj
  obtain ⟨points,hlin,hmirror⟩ := linearizes ρ.injective hρ
    (Nat.lt_of_le_of_lt (writes_le hfaithful hrun) hlt) hfaithful hrun (List.prefix_refl _)
  refine ⟨ρ,told ρ m',points,ρ.injective,hlin,?_,?_⟩
  · intro i o ho
    simp [told,hdone i o ho]
  · intro l hl hfree
    exact ⟨_,hinv.settled l hl hfree,hmirror.objects l⟩

end Runs

def restocks (i : ℕ) : Request :=
  if i = 0 then .create (box 0) [1]
  else if i = 1 then .create (box 0) [2]
  else if i = 2 then .replace (box 0) (revisionVersion 0) [3]
  else .get (box 0)

-- Two callers race to create an object, a third replaces what the first wrote and a fourth reads.
theorem empty_root_refines_memory :
    ∃ (tr : Trace SysReply) (c' : Config Disk SysReply Outcome),
      Run (Env False) ⟨emptyRoot,fun i => (restocks i).outcome <$> serve ⟨[]⟩ (restocks i)⟩ tr c' ∧
      c'.calls 0 = .done (.created (revisionVersion 0)) ∧
      c'.calls 1 = .done (.alreadyExists (revisionVersion 0)) ∧
      c'.calls 2 = .done (.replaced (revisionVersion 2)) ∧
      c'.calls 3 = .done (.found (some ⟨[3],revisionVersion 2⟩)) ∧ publications tr < 2 ^ 64 ∧
      ∃ (ρ : Version → Version) (out : ℕ → Option Outcome) (points : List (ℕ × ℕ)),
        Function.Injective ρ ∧
        Linearization Memory.answer Memory.State.default (fun i => (restocks i).rename ρ) Settles tr
          out points ∧
        (∀ i o, c'.calls i = .done o → out i = some (o.rename ρ)) ∧
        ∀ l, Structural l → (∀ i, ¬ c'.world.Holds (lockPath [] l) i .exclusive) →
          ∃ o, (layout []).Shows c'.world l o ∧
            (replay Memory.answer Memory.State.default
              (points.map (fun p => (restocks p.2).rename ρ))).1.objects l =
                o.map (Object.rename ρ) := by
  have hplay : plays Script.answer Script.disk [(1,8),(0,40),(1,40),(2,40),(3,40)]
      ⟨⟨[0,1,2,3],emptyRoot⟩,fun i => (restocks i).outcome <$> serve ⟨[]⟩ (restocks i)⟩
      (fun tr c => ended (· = .created (revisionVersion 0)) (c.calls 0) &&
        ended (· = .alreadyExists (revisionVersion 0)) (c.calls 1) &&
        ended (· = .replaced (revisionVersion 2)) (c.calls 2) &&
        ended (· = .found (some ⟨[3],revisionVersion 2⟩)) (c.calls 3) &&
        publications tr = 2) = true := by
    decide +kernel
  obtain ⟨tr,c',hrun,hends⟩ := Script.run hplay
  simp only [Bool.and_eq_true,ended_iff,decide_eq_true_eq] at hends
  obtain ⟨⟨⟨⟨⟨_,h0,rfl⟩,⟨_,h1,rfl⟩⟩,⟨_,h2,rfl⟩⟩,⟨_,h3,rfl⟩⟩,hcount⟩ := hends
  have hlt : publications tr < 2 ^ 64 := by omega
  refine ⟨tr,c',hrun,h0,h1,h2,h3,hlt,
    filesystem_refines_memory emptyRoot_pristine (fun i => ?_) hrun hlt⟩
  have hbox : (restocks i).location = box 0 := by
    simp only [restocks]
    split_ifs <;> rfl
  exact hbox ▸ box_structural 0

end Filesystem

end Objsds
