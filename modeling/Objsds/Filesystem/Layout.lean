import Objsds.Filesystem.Calls

namespace Objsds

open Foundation FilesystemStore

namespace Filesystem

def kinds : List String := ["maps","logs","queues"]

def Structural (l : Location) : Prop :=
  ∃ ns kind name, kind ∈ kinds ∧ Location.structure ns kind name = .ok l

section Texts

variable {ns kind name : String} {l : Location}

theorem Location.structure_inv (h : Location.structure ns kind name = .ok l) :
    isPathSegment ns = true ∧ isPathSegment kind = true ∧ isPathSegment name = true ∧
      l.asStr = structureText ns kind name := by
  unfold Location.structure at h
  split at h
  · rename_i hall
    simp only [List.all_cons,List.all_nil,Bool.and_true,Bool.and_eq_true] at hall
    obtain ⟨hns,hkind,hname⟩ := hall
    unfold Location.new at h
    split at h
    · exact ⟨hns,hkind,hname,by rw [← Except.ok.inj h]⟩
    · simp at h
  · simp at h

theorem segments_structure (hns : isPathSegment ns = true) (hkind : isPathSegment kind = true)
    (hname : isPathSegment name = true) :
    segments (structureText ns kind name).toList =
      [ns.toList,kind.toList,(name ++ ".json").toList] := by
  obtain ⟨-,-,-,hs⟩ := isPathSegment_iff.mp hns
  obtain ⟨-,-,-,hk⟩ := isPathSegment_iff.mp hkind
  obtain ⟨-,-,-,hn⟩ := isPathSegment_iff.mp (isPathSegment_json hname)
  rw [structureText_toList,segments_append hs,segments_append hk,← String.toList_append,
    segments_of_not_mem hn]

theorem components_structure (hns : isPathSegment ns = true) (hkind : isPathSegment kind = true)
    (hname : isPathSegment name = true) :
    components (structureText ns kind name) =
      [.normal ns,.normal kind,.normal (name ++ ".json")] := by
  obtain ⟨hne,hdot,-,-⟩ := isPathSegment_iff.mp hns
  have h₁ : ns.toList ≠ [] := fun he => hne (String.toList_eq_nil_iff.mp he)
  have h₂ : ns.toList ≠ ['.'] := fun he => hdot (String.toList_inj.mp he)
  rw [components,segments_structure hns hkind hname]
  simp only [firstComponent,if_neg h₁,if_neg h₂,laterComponent_segment hns,List.filterMap_cons,
    laterComponent_segment hkind,laterComponent_segment (isPathSegment_json hname),
    List.filterMap_nil,Option.toList_some,List.singleton_append]

theorem names_structure (h : Location.structure ns kind name = .ok l) :
    accepted l.asStr = true ∧ names l.asStr = [ns,kind,name ++ ".json"] ∧
      dirOnly l.asStr = false := by
  obtain ⟨hns,hkind,hname,hl⟩ := Location.structure_inv h
  have hlast : (name ++ ".json").toList ≠ [] ∧ (name ++ ".json").toList ≠ ['.'] := by
    constructor <;>
    · intro he
      have hn := jsonName_last name
      simp [he] at hn
  have hc := components_structure hns hkind hname
  refine ⟨by simp [hl,accepted,hc,Component.name],by simp [hl,names,hc,Component.name],?_⟩
  rw [hl,dirOnly,segments_structure hns hkind hname]
  simp only [List.getLast?_cons_cons,List.getLast?_singleton,Option.some.injEq,hlast.1,hlast.2,
    decide_false,Bool.or_false]

theorem structure_separate {ns' kind' name' : String} {l' : Location}
    (h : Location.structure ns kind name = .ok l)
    (h' : Location.structure ns' kind' name' = .ok l') (hn : names l.asStr = names l'.asStr) :
    l = l' := by
  rw [(names_structure h).2.1,(names_structure h').2.1] at hn
  simp only [List.cons.injEq,and_true] at hn
  obtain ⟨rfl,rfl,hname⟩ := hn
  have hj := congrArg String.toList hname
  simp only [String.toList_append,List.append_cancel_right_eq,String.toList_inj] at hj
  subst hj
  rw [h] at h'
  exact Except.ok.inj h'

theorem kind_ne_lockName (h : kind ∈ kinds) (l : Location) : kind ≠ lockName l := by
  rintro rfl
  have hl := lockName_last l
  simp only [kinds,List.mem_cons,List.not_mem_nil,or_false] at h
  rcases h with h | h | h <;> rw [h] at hl <;> simp at hl

end Texts

def layout (root : Path) : Setting where
  root := root
  sites := Structural
  old := fun _ => False
  origin := fun _ data => ∃ o, decode data = .ok o
  blank := fun _ n => n = none
  faults := False
  lax := False

section Layouts

variable {root : Path} {l l' : Location}

theorem length_object (hl : Structural l) :
    ((layout root).object l).path.length = root.length + 3 := by
  obtain ⟨ns,kind,name,-,h⟩ := hl
  simp [Setting.object_path,(names_structure h).2.1,layout]

theorem length_dir (hl : Structural l) : ((layout root).dir l).length = root.length + 2 := by
  obtain ⟨ns,kind,name,-,h⟩ := hl
  simp [Setting.dir,(names_structure h).2.1,layout]

theorem layout_strict (root : Path) : (layout root).Strict where
  plain := by
    rintro l ⟨ns,kind,name,-,h⟩
    exact (names_structure h).2.2
  apart := by
    intro l l' hl hl' hp
    have := hp.length_le
    rw [length_object hl,length_dir hl'] at this
    omega
  lockApart := by
    rintro l l' hl ⟨ns,kind,name,hkind,h⟩ hp
    have hd : (layout root).dir l' = root ++ [ns,kind] := by
      simp [Setting.dir,(names_structure h).2.1,layout]
    have he := hp.eq_of_length (by rw [hd]; simp [Setting.lock,lockPath,layout])
    rw [hd] at he
    have hk := List.append_cancel_left he
    simp only [List.cons.injEq,and_true] at hk
    exact kind_ne_lockName hkind l hk.2.symm
  temporaryApart := by
    intro l l' id hl hl' hp
    have := hp.length_le
    rw [Setting.temporary,List.length_append,length_dir hl,length_dir hl'] at this
    simp at this

theorem layout_sound (root : Path) : (layout root).Sound where
  accepted := by
    rintro l ⟨ns,kind,name,-,h⟩
    exact (names_structure h).1
  separate := by
    rintro l l' ⟨ns,kind,name,-,h⟩ ⟨ns',kind',name',-,h'⟩ hp
    exact structure_separate h h' (List.append_cancel_left hp)
  notLock := by
    intro l l' hl _ hp
    have := congrArg List.length hp
    rw [length_object hl] at this
    simp [Setting.lock,lockPath,layout] at this
  notTemporary := by
    rintro l l' id ⟨ns,kind,name,-,h⟩ hl' _ hp
    have he := congrArg List.getLast? hp
    simp only [Setting.object_path,Setting.temporary,(names_structure h).2.1,List.getLast?_append,
      List.getLast?_cons_cons,List.getLast?_singleton,Option.some_or,Option.some.injEq] at he
    exact jsonName_ne_temporaryName name id he
  decodes := fun _ _ h => h
  blankDir := fun l l' hl hl' hp => absurd hp ((layout_strict root).apart l l' hl hl')
  strict := fun _ => layout_strict root
  reliable := id

theorem layout_admits (root : Path) (l : Location) (b : Bytes) : (layout root).Admits l b :=
  fun rev _ hb => ⟨_,decode_envelope rev (by omega)⟩

theorem layout_expects (root : Path) {rq : Request} (h : Structural rq.location) :
    (layout root).Expects rq := by
  refine ⟨h,?_⟩
  cases rq with
  | get l => trivial
  | create l b => exact layout_admits root l b
  | replace l x b => exact layout_admits root l b

end Layouts

-- A canonical root with nothing below it but the directory for locks.
structure Pristine (root : Path) (d : Disk) : Prop where
  wf : d.Wf
  clear : d.Clear root
  rootDir : d.node root = some .dir
  top : ∀ ino, d.entries [] ≠ some (.file ino)
  locksDir : d.entries (root ++ [lockDir]) = some .dir
  bare : ∀ p, p ≠ [] → p ≠ [lockDir] → d.kept (root ++ p) = [none]
  current : ∀ p, d.entries p ∈ d.kept p
  bounded : ∀ p ino, some (.file ino) ∈ d.kept p → ino < d.next
  locks : ∀ ino, d.locks ino = []
  drawn : ∀ id, d.drawn id = none

namespace Pristine

variable {root : Path} {d : Disk} (h : Pristine root d)
include h

theorem empty {p : Path} (hp : p ≠ []) (hl : p ≠ [lockDir]) : d.entries (root ++ p) = none := by
  have := h.current (root ++ p)
  rwa [h.bare p hp hl,List.mem_singleton] at this

theorem clear_below (p : Path) : d.Clear (root ++ p) := by
  intro q hq t ht
  rcases List.prefix_or_prefix_of_prefix hq (List.prefix_append root p) with hq | ⟨s,rfl⟩
  · exact h.clear q hq t ht
  · by_cases hs : s = []
    · subst hs
      exact h.clear _ (by simp) t ht
    · by_cases hs' : s = [lockDir]
      · subst hs'
        simp [h.locksDir] at ht
      · simp [h.empty hs hs'] at ht

theorem no_file {p : Path} (hp : p <+: root ∨ root <+: p) (ino : ℕ) :
    d.entries p ≠ some (.file ino) := by
  intro hf
  have habove : p <+: root → False := by
    intro hq
    have hn := h.wf.prefix_dir h.rootDir hq
    by_cases hne : p = []
    · subst hne
      exact h.top ino hf
    · rw [Disk.node_of_ne hne,hf] at hn
      simp at hn
  rcases hp with hp | ⟨s,rfl⟩
  · exact habove hp
  · by_cases hs : s = []
    · subst hs
      exact habove (by simp)
    · by_cases hs' : s = [lockDir]
      · subst hs'
        simp [h.locksDir] at hf
      · simp [h.empty hs hs'] at hf

theorem tree : Tree (layout root) d := by
  have hobject : ∀ l, Structural l → names l.asStr ≠ [] ∧ names l.asStr ≠ [lockDir] := by
    rintro l ⟨ns,kind,name,-,hl⟩
    simp [(names_structure hl).2.1]
  have hnone : ∀ l, Structural l → d.entries ((layout root).object l).path = none := fun l hl =>
    h.empty (hobject l hl).1 (hobject l hl).2
  have hlock : ∀ l, d.entries ((layout root).lock l) = none := fun l =>
    h.empty (by simp) (by simp)
  constructor
  · exact h.wf
  · exact h.rootDir
  · exact (Disk.node_snoc lockDir).trans h.locksDir
  · exact fun l _ => h.clear_below _
  · exact fun l _ => h.clear_below _
  · exact h.current
  · exact h.bounded
  · intro l l' ino _ _ hf
    simp [hlock] at hf
  · intro _ l _ hd
    have hk : d.kept ((layout root).lock l) = [none] := h.bare _ (by simp) (by simp)
    simp [hk] at hd
  · rintro - l q ino hl hq
    have hdir : q <+: ((layout root).object l).path := hq.trans (Setting.dir_prefix l)
    exact h.no_file (List.prefix_or_prefix_of_prefix hdir (List.prefix_append root _)) ino
  · intro _ l hl
    exact ⟨by simp [hnone l hl],by simp [hlock]⟩
  · intro _ l id hl _
    obtain ⟨ns,kind,name,-,hs⟩ := hl
    have ht : (layout root).temporary l id = root ++ [ns,kind,temporaryName id] := by
      simp [Setting.temporary,Setting.dir,(names_structure hs).2.1,layout]
    rw [ht]
    exact h.empty (by simp) (by simp)

theorem inv : Inv (layout root) d ⟨fun _ => none,[]⟩ where
  tree := h.tree
  idle := fun ino _ => h.locks ino
  exclusive := by
    intro ino i hm
    simp [h.locks] at hm
  old := fun _ ho => ho.elim
  used := by simp
  issued := by simp [Ideal.State.Issued]
  possible := by
    rintro l ⟨ns,kind,name,-,hl⟩ n hn
    have hk : d.kept ((layout root).object l).path = [none] := by
      refine h.bare _ ?_ ?_ <;> simp [(names_structure hl).2.1]
    rw [hk,List.mem_singleton] at hn
    subst hn
    exact rfl
  settled := by
    rintro l ⟨ns,kind,name,-,hl⟩ -
    have hn : d.entries ((layout root).object l).path = none := by
      refine h.empty ?_ ?_ <;> simp [(names_structure hl).2.1]
    simp [Setting.Shows,Disk.visible,hn]

end Pristine

def boxName (i : ℕ) : String := String.ofList (List.replicate (i + 1) 'a')

theorem boxName_segment (i : ℕ) : isPathSegment (boxName i) = true := by
  have hl : (boxName i).toList = List.replicate (i + 1) 'a' := String.toList_ofList
  refine isPathSegment_iff.mpr ⟨?_,?_,?_,?_⟩
  · intro h
    rw [h] at hl
    simp at hl
  · intro h
    rw [h] at hl
    simp [List.replicate_succ] at hl
  · intro h
    rw [h] at hl
    simp [List.replicate_succ] at hl
  · simp [hl]

def box (i : ℕ) : Location :=
  ⟨structureText "shop" "maps" (boxName i),
    structureText_normalized (by decide) (by decide) (boxName_segment i)⟩

theorem box_structure (i : ℕ) : Location.structure "shop" "maps" (boxName i) = .ok (box i) :=
  Location.structure_eq (by decide) (by decide) (boxName_segment i)

theorem box_structural (i : ℕ) : Structural (box i) :=
  ⟨"shop","maps",boxName i,by simp [kinds],box_structure i⟩

theorem box_injective : Function.Injective box := by
  intro i j h
  have hi := (names_structure (box_structure i)).2.1
  rw [h,(names_structure (box_structure j)).2.1] at hi
  simp only [List.cons.injEq,and_true,true_and] at hi
  have hl := congrArg (fun t => t.toList.length) hi
  simp [boxName] at hl
  exact hl.symm

def emptyRoot : Disk := .untouched (fun p => if p = [lockDir] then some .dir else none)

theorem emptyRoot_pristine : Pristine [] emptyRoot where
  wf := by
    intro p c h
    have hp : p ++ [c] = [lockDir] := by
      by_contra hne
      simp [emptyRoot,Disk.untouched,hne] at h
    cases p with
    | nil => rfl
    | cons x p => simp at hp
  clear := by
    intro q hq t
    simp [List.prefix_nil.mp hq,emptyRoot,Disk.untouched]
  rootDir := rfl
  top := by simp [emptyRoot,Disk.untouched]
  locksDir := rfl
  bare := by
    intro p _ hp
    simp [emptyRoot,Disk.untouched,hp]
  current := by simp [emptyRoot,Disk.untouched]
  bounded := by
    intro p ino h
    simp only [emptyRoot,Disk.untouched,List.mem_singleton] at h
    split at h <;> simp at h
  locks := fun _ => rfl
  drawn := fun _ => rfl

end Filesystem

end Objsds
