import Objsds.Filesystem.Equivalence
import Objsds.Filesystem.Unhindered

namespace Objsds

open Foundation FilesystemStore

namespace Memory

theorem version_wraps {s : State} {k : ℕ} (h : s.nextVersion.toNat = k % 2 ^ 64) :
    s.version.1 = token ((k + 1) % 2 ^ 64) ∧ s.version.2.nextVersion.toNat = (k + 1) % 2 ^ 64 := by
  have hn : (s.nextVersion + 1).toNat = (k + 1) % 2 ^ 64 := by
    rw [UInt64.toNat_add,h,UInt64.toNat_one]
    omega
  exact ⟨by rw [State.version,token,hn],hn⟩

theorem replay_creates {s : State} {k : ℕ} {ls : List Location} (b : Bytes)
    (hs : s.nextVersion.toNat = k % 2 ^ 64) (hn : ls.Nodup) (ha : ∀ l ∈ ls, s.objects l = none) :
    (replay answer s (ls.map (fun l => .create l b))).2 =
      (List.range' (k + 1) ls.length).map (fun n => .created (token (n % 2 ^ 64))) := by
  induction ls generalizing s k with
  | nil => rfl
  | cons l ls ih =>
      obtain ⟨hl,hn⟩ := List.nodup_cons.mp hn
      obtain ⟨hal,ha⟩ := List.forall_mem_cons.mp ha
      obtain ⟨hversion,hnext⟩ := version_wraps hs
      let s' : State := ⟨s.objects.put l ⟨b,s.version.1⟩,s.version.2.nextVersion⟩
      have hanswer : answer s (.create l b) = (s',.created (token ((k + 1) % 2 ^ 64))) := by
        simp only [answer,handle,create,hal,Request.outcome,version_objects,← hversion,s']
      rw [List.map_cons,replay,hanswer,List.length_cons,List.range'_succ,List.map_cons]
      refine congrArg (List.cons _) (ih (s := s') hnext hn (fun l' hl' => ?_))
      change s.objects.put l ⟨b,s.version.1⟩ l' = none
      have hne : l' ≠ l := by
        rintro rfl
        exact hl hl'
      rw [Objects.put_other _ hne]
      exact ha l' hl'

end Memory

namespace Filesystem

def packing (i : ℕ) : Request := .create (box i) []

theorem packing_unhindered (root : Path) (i : ℕ) :
    Unhindered (fun _ σ => σ.held = none) ((packing i).outcome <$> serve ⟨root⟩ (packing i))
      ⟨none,2⟩ := by
  have hcreate : Unhindered (fun _ σ => σ.held = none) (FilesystemStore.create ⟨root⟩ (box i) [])
      ⟨none,2⟩ := unhindered_create (n := 0) ⟨root⟩ (box i) (by simp)
  exact Unhindered.map (Unhindered.map hcreate)

-- One object after another, as many as there are identifiers for.
theorem packing_run {root : Path} {d : Disk} (hd : Pristine root d) {n : ℕ}
    (hn : 2 * n ≤ 2 ^ 128) :
    ∃ tr c', Run (Env False) ⟨d,fun i => (packing i).outcome <$> serve ⟨root⟩ (packing i)⟩ tr c' ∧
      (∀ i < n, ∃ o, c'.calls i = .done o) ∧
      (∀ i, n ≤ i → c'.calls i = (packing i).outcome <$> serve ⟨root⟩ (packing i)) ∧
      (∀ ev ∈ tr, ev.call < n) ∧ (∀ ino, c'.world.locks ino = []) ∧
      ∀ id, c'.world.drawn id ≠ none → id.val < 2 * n := by
  induction n with
  | zero =>
      refine ⟨[],_,.nil,by simp,fun _ _ => rfl,by simp,hd.locks,?_⟩
      intro id hid
      exact absurd (hd.drawn id) hid
  | succ n ih =>
      obtain ⟨tr,⟨d₁,calls⟩,hrun,hdone,hrest,hcall,hlocks,hdrawn⟩ := ih (by omega)
      have halone : Alone n (2 * (n + 1)) ⟨none,2⟩ d₁ := by
        refine ⟨fun ino => .inl (hlocks ino),fun id hid => ?_⟩
        have := hdrawn id hid
        change id.val + 2 < 2 * (n + 1)
        omega
      have hnext : Unhindered (fun _ σ => σ.held = none) (calls n) ⟨none,2⟩ := by
        have hcall : calls n = (packing n).outcome <$> serve ⟨root⟩ (packing n) :=
          hrest n (Nat.le_refl n)
        rw [hcall]
        exact packing_unhindered root n
      have hlimit : 2 ≤ 2 * (n + 1) := by omega
      obtain ⟨tr',d₂,o,σ,hown,hrun',hheld,hend⟩ := hnext.completes rfl halone hn hlimit
      refine ⟨tr ++ tr',_,Run.append_iff.mpr ⟨_,hrun,hrun'⟩,?_,?_,?_,?_,?_⟩
      · intro i hi
        by_cases he : i = n
        · subst he
          exact ⟨o,by simp⟩
        · simpa [he] using hdone i (by omega)
      · intro i hi
        have hne : i ≠ n := by omega
        simpa [hne] using hrest i (by omega)
      · intro ev hev
        rcases List.mem_append.mp hev with hev | hev
        · have := hcall ev hev
          omega
        · rw [hown ev hev]
          omega
      · intro ino
        rcases hend.locks ino with hnil | ⟨hk,-⟩
        · exact hnil
        · simp [hheld] at hk
      · intro id hid
        have := hend.drawn id hid
        omega

theorem outcome_created {q : Request} {r : q.Response StoreError} {v : Version}
    (h : q.outcome r = .created v) : mutation (⟨.store q,r⟩ : Sigma (Reply StoreError)) = some v := by
  match q,r,h with
  | .create l b,.created w,h => exact congrArg some (Outcome.created.inj h)

theorem packed_once {root : Path} {d : Disk} (hd : Pristine root d) {tr : Trace SysReply}
    {c' : Config Disk SysReply Outcome} {i j : ℕ} {v : Version}
    (h : Run (Env False) ⟨d,fun i => (packing i).outcome <$> serve ⟨root⟩ (packing i)⟩ tr c')
    (hi : c'.calls i = .done (.created v)) (hj : c'.calls j = .done (.created v)) : i = j := by
  simp only [← perform_ask] at h
  obtain ⟨marks,m',-,hrun,-,hdone⟩ := pool_refines (K := layout root) (layout_sound root) hd.inv
    hd.locks (fun i => ask_serves (q := packing i) (box_structural i)) (fun hf => hf.elim) h
  obtain ⟨hnodup,-⟩ := Ideal.writes_fresh hrun
  have hevent : ∀ k, c'.calls k = .done (.created v) →
      ∃ ev ∈ marks.reduceOption, ev.call = k ∧ mutation ev.answer = some v := by
    intro k hk
    have hf := hrun.follows k
    rw [hdone k _ hk] at hf
    rcases Program.follows_perform.mp hf with ⟨-,hd⟩ | ⟨r,h',hof,hf'⟩
    · simp at hd
    · obtain ⟨-,ho⟩ := Program.follows_done.mp hf'
      have hmem : ⟨.store (packing k),r⟩ ∈ Trace.of k marks.reduceOption := by simp [hof]
      obtain ⟨ev,hev,hcall,hans⟩ := Trace.mem_of.mp hmem
      refine ⟨ev,hev,hcall,?_⟩
      rw [hans]
      exact outcome_created (Program.done.inj ho).symm
  obtain ⟨ev,hev,rfl,hv⟩ := hevent i hi
  obtain ⟨ev',hev',rfl,hv'⟩ := hevent j hj
  rw [filterMap_inj hnodup hev hev' hv hv']

theorem Outcome.rename_created {ρ : Version → Version} {o : Outcome} {w : Version}
    (h : o.rename ρ = .created w) : ∃ v, o = .created v ∧ ρ v = w := by
  cases o with
  | created v => exact ⟨v,rfl,Outcome.created.inj h⟩
  | _ => simp [Outcome.rename] at h

theorem replay_repeats {n : ℕ} (hn : 2 ^ 64 < n) {out : ℕ → Option Outcome} {js : List ℕ}
    (hlen : js.length = n) (hnodup : js.Nodup)
    (hres : (replay Memory.answer Memory.State.default (js.map packing)).2.map some = js.map out) :
    ∃ i j, i ∈ js ∧ j ∈ js ∧ i ≠ j ∧ out i = some (.created (Memory.token 1)) ∧
      out j = some (.created (Memory.token 1)) := by
  have hmap : js.map packing = (js.map box).map (fun l => .create l []) := by
    rw [List.map_map]
    rfl
  rw [hmap,Memory.replay_creates (k := 0) [] rfl (hnodup.map box_injective) (fun _ _ => rfl),
    List.length_map,hlen] at hres
  have hat : ∀ k (hk : k < n), ∃ i, js[k]? = some i ∧
      out i = some (.created (Memory.token ((k + 1) % 2 ^ 64))) := by
    intro k hk
    obtain ⟨i,hi⟩ : ∃ i, js[k]? = some i := ⟨_,List.getElem?_eq_getElem (by omega)⟩
    have hk' := congrArg (fun xs => xs[k]?) hres
    simp only [List.getElem?_map,List.getElem?_range' hk,hi,Option.map_some,Option.some.injEq] at hk'
    refine ⟨i,hi,hk'.symm.trans ?_⟩
    rw [show 0 + 1 + 1 * k = k + 1 by omega]
  obtain ⟨i,hi,hoi⟩ := hat 0 (by omega)
  obtain ⟨j,hj,hoj⟩ := hat (2 ^ 64) hn
  refine ⟨i,j,List.mem_of_getElem? hi,List.mem_of_getElem? hj,?_,hoi,hoj⟩
  rintro rfl
  have := (List.getElem?_inj (by omega) hnodup).mp (hi.trans hj.symm)
  omega

theorem memory_versions_repeat :
    ∃ (d : Disk) (rq : ℕ → Request) (tr : Trace SysReply) (c' : Config Disk SysReply Outcome),
      Pristine [] d ∧ (∀ i, Structural (rq i).location) ∧
      Run (Env False) ⟨d,fun i => (rq i).outcome <$> serve ⟨[]⟩ (rq i)⟩ tr c' ∧
      ¬ ∃ (ρ : Version → Version) (out : ℕ → Option Outcome) (points : List (ℕ × ℕ)),
        Function.Injective ρ ∧
        Linearization Memory.answer Memory.State.default (fun i => (rq i).rename ρ) (fun _ => True)
          tr out points ∧
        ∀ i o, c'.calls i = .done o → out i = some (o.rename ρ) := by
  have hn : 2 * (2 ^ 64 + 1) ≤ 2 ^ 128 := by omega
  obtain ⟨tr,c',hrun,hdone,-,hcall,-,-⟩ := packing_run emptyRoot_pristine hn
  refine ⟨emptyRoot,packing,tr,c',emptyRoot_pristine,box_structural,hrun,?_⟩
  rintro ⟨ρ,out,points,hρ,hlin,hout⟩
  have hmem : ∀ i, i ∈ points.map Prod.snd ↔ i < 2 ^ 64 + 1 := by
    intro i
    constructor
    · intro hi
      obtain ⟨p,hp,rfl⟩ := List.mem_map.mp hi
      obtain ⟨ev,hev,hc,-⟩ := hlin.own p hp
      exact hc ▸ hcall ev (List.mem_of_getElem? hev)
    · intro hi
      obtain ⟨o,ho⟩ := hdone i hi
      exact hlin.complete i _ (hout i o ho)
  have hlen : (points.map Prod.snd).length = 2 ^ 64 + 1 := by
    have hperm : (points.map Prod.snd).Perm (List.range (2 ^ 64 + 1)) :=
      (List.perm_ext_iff_of_nodup hlin.once List.nodup_range).mpr
        (fun i => by rw [hmem,List.mem_range])
    rw [hperm.length_eq,List.length_range]
  have hops : points.map (fun p => (packing p.2).rename ρ) = (points.map Prod.snd).map packing := by
    rw [List.map_map]
    rfl
  have houts : points.map (fun p => out p.2) = (points.map Prod.snd).map out := by
    rw [List.map_map]
    rfl
  have hres := hlin.results
  rw [hops,houts] at hres
  obtain ⟨i,j,hi,hj,hne,hoi,hoj⟩ := replay_repeats (Nat.lt_succ_self _) hlen hlin.once hres
  obtain ⟨o,ho⟩ := hdone i ((hmem i).mp hi)
  obtain ⟨o',ho'⟩ := hdone j ((hmem j).mp hj)
  have hx := hout i o ho
  have hx' := hout j o' ho'
  rw [hoi] at hx
  rw [hoj] at hx'
  obtain ⟨v,rfl,hv⟩ := Outcome.rename_created (Option.some.inj hx).symm
  obtain ⟨v',rfl,hv'⟩ := Outcome.rename_created (Option.some.inj hx').symm
  obtain rfl : v = v' := hρ (hv.trans hv'.symm)
  exact hne (packed_once emptyRoot_pristine hrun ho ho')

end Filesystem

end Objsds
