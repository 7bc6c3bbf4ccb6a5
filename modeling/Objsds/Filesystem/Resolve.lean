import Objsds.Filesystem.Disk

namespace Objsds

namespace Filesystem

namespace Disk

variable {d : Disk} {p q : Path}

def Wf (d : Disk) : Prop := ∀ p c, d.entries (p ++ [c]) ≠ none → d.node p = some .dir

def Clear (d : Disk) (p : Path) : Prop := ∀ q, q <+: p → ∀ t, d.entries q ≠ some (.link t)

@[simp] theorem node_nil : d.node [] = some .dir := rfl

@[simp] theorem node_snoc (c : String) : d.node (p ++ [c]) = d.entries (p ++ [c]) := by
  simp [node]

theorem node_of_ne (h : p ≠ []) : d.node p = d.entries p := by
  simp [node,h]

theorem node_file {ino : ℕ} : d.node p = some (.file ino) ↔ p ≠ [] ∧ d.entries p = some (.file ino) := by
  by_cases h : p = [] <;> simp [node,h]

theorem Clear.mono (h : d.Clear p) (hq : q <+: p) : d.Clear q :=
  fun r hr => h r (hr.trans hq)

theorem Wf.below (hw : d.Wf) {s : List String} (hs : s ≠ []) (h : d.entries (q ++ s) ≠ none) :
    d.node q = some .dir := by
  induction s using List.reverseRecOn with
  | nil => exact absurd rfl hs
  | append_singleton s c ih =>
      rw [← List.append_assoc] at h
      have hn := hw (q ++ s) c h
      cases s with
      | nil => simpa using hn
      | cons x s =>
          refine ih (by simp) ?_
          rw [← node_of_ne (by simp),hn]
          simp

theorem Wf.under_file (hw : d.Wf) {s : List String} (hs : s ≠ []) {ino : ℕ}
    (hf : d.entries q = some (.file ino)) (hq : q ≠ []) : d.entries (q ++ s) = none := by
  by_contra h
  have := hw.below hs h
  rw [node_of_ne hq,hf] at this
  simp at this

theorem Wf.under_none (hw : d.Wf) {s : List String} (hs : s ≠ []) (hn : d.entries q = none)
    (hq : q ≠ []) : d.entries (q ++ s) = none := by
  by_contra h
  have := hw.below hs h
  rw [node_of_ne hq,hn] at this
  simp at this

theorem Wf.prefix_dir (hw : d.Wf) (hp : d.node p = some .dir) (hq : q <+: p) :
    d.node q = some .dir := by
  obtain ⟨s,rfl⟩ := hq
  cases s with
  | nil => simpa using hp
  | cons c s =>
      refine hw.below (s := c :: s) (by simp) ?_
      rw [← node_of_ne (by simp),hp]
      simp

inductive Located (d : Disk) (p : Path) : Except IoError Path → Prop
  | found (above : p = [] ∨ d.node p.dropLast = some .dir) : Located d p (.ok p)
  | missing (q s : Path) (split : p = q ++ s) (proper : s ≠ []) (nonempty : q ≠ [])
      (gone : d.entries q = none) : Located d p (.error .notFound)
  | through (q s : Path) (ino : ℕ) (split : p = q ++ s) (proper : s ≠ []) (nonempty : q ≠ [])
      (file : d.entries q = some (.file ino)) : Located d p (.error .notADirectory)

theorem walk_located (hw : d.Wf) {follow : Path → List String → Except IoError Path}
    {rest : List String} (hb : d.node p = some .dir) (hc : d.Clear (p ++ rest)) :
    Located d (p ++ rest) (walk d.entries follow p rest) := by
  induction rest generalizing p with
  | nil =>
      rw [List.append_nil,walk]
      refine .found ?_
      exact .inr (hw.prefix_dir hb (List.dropLast_prefix p))
  | cons c rest ih =>
      have hcons : p ++ c :: rest = (p ++ [c]) ++ rest := by simp
      rw [walk]
      cases he : d.entries (p ++ [c]) with
      | none =>
          by_cases hr : rest = []
          · subst hr
            simp only [if_true]
            exact .found (.inr (by simpa using hb))
          · simp only [if_neg hr]
            exact .missing (p ++ [c]) rest hcons hr (by simp) he
      | some n =>
          cases n with
          | dir =>
              rw [hcons] at hc ⊢
              exact ih (by simpa using he) hc
          | link t => exact absurd he (hc (p ++ [c]) ⟨rest,by simp⟩ t)
          | file ino =>
              by_cases hr : rest = []
              · subst hr
                simp only [if_true]
                exact .found (.inr (by simpa using hb))
              · simp only [if_neg hr]
                exact .through (p ++ [c]) rest ino hcons hr (by simp) he

theorem resolve_located (hw : d.Wf) (hc : d.Clear p) : Located d p (d.resolve p) :=
  walk_located (p := []) hw rfl hc

theorem Located.gone {r : Except IoError Path} {e : IoError} (hw : d.Wf) (h : Located d p r)
    (hr : r = .error e) : p ≠ [] ∧ d.entries p = none := by
  cases h with
  | found => simp at hr
  | missing q s hp hs hq hg =>
      subst hp
      exact ⟨by simp [hs],hw.under_none hs hg hq⟩
  | through q s ino hp hs hq hf =>
      subst hp
      exact ⟨by simp [hs],hw.under_file hs hf hq⟩

theorem locate_located (hw : d.Wf) (hc : d.Clear p.dropLast) : Located d p (d.locate p) := by
  rcases List.eq_nil_or_concat p with rfl | ⟨p,c,rfl⟩
  · exact .found (.inl rfl)
  · rw [List.concat_eq_append] at hc ⊢
    rw [List.dropLast_concat] at hc
    have hl := resolve_located hw hc
    simp only [locate,List.getLast?_append,List.getLast?_singleton,Option.some_or,
      List.dropLast_concat]
    generalize d.resolve p = r at hl
    cases hl with
    | missing q s hp hs hq hg =>
        exact .missing q (s ++ [c]) (by simp [hp]) (by simp) hq hg
    | through q s ino hp hs hq hf =>
        exact .through q (s ++ [c]) ino (by simp [hp]) (by simp) hq hf
    | found ha =>
        dsimp only
        cases hn : d.node p with
        | none =>
            have hp : p ≠ [] := by
              rintro rfl
              simp at hn
            exact .missing p [c] rfl (by simp) hp (by rwa [node_of_ne hp] at hn)
        | some n =>
            cases n with
            | dir => exact .found (.inr (by simpa using hn))
            | file ino =>
                obtain ⟨hp,hf⟩ := node_file.mp hn
                exact .through p [c] ino rfl (by simp) hp hf
            | link t =>
                have hp : p ≠ [] := by
                  rintro rfl
                  simp at hn
                rw [node_of_ne hp] at hn
                exact absurd hn (hc p (List.prefix_refl p) t)

theorem Located.of_parent {r : Except IoError Path} {c : String} (hw : d.Wf)
    (h : Located d (p ++ [c]) r) (hp : d.node p = some .dir) : r = .ok (p ++ [c]) := by
  have above : ∀ q s, p ++ [c] = q ++ s → s ≠ [] → d.node q = some .dir := by
    intro q s hs hne
    rcases List.eq_nil_or_concat s with rfl | ⟨s,x,rfl⟩
    · exact absurd rfl hne
    · rw [List.concat_eq_append,← List.append_assoc] at hs
      obtain ⟨rfl,-⟩ := List.append_inj' hs rfl
      exact hw.prefix_dir hp (List.prefix_append q s)
  cases h with
  | found => rfl
  | missing q s hs hne hq hg =>
      have := above q s hs hne
      rw [node_of_ne hq,hg] at this
      simp at this
  | through q s ino hs hne hq hf =>
      have := above q s hs hne
      rw [node_of_ne hq,hf] at this
      simp at this

theorem locate_child (hw : d.Wf) (c : String) (hc : d.Clear p) (hp : d.node p = some .dir) :
    d.locate (p ++ [c]) = .ok (p ++ [c]) :=
  (locate_located hw (by rwa [List.dropLast_concat])).of_parent hw hp

theorem resolve_child (hw : d.Wf) {c : String} (hc : d.Clear (p ++ [c]))
    (hp : d.node p = some .dir) : d.resolve (p ++ [c]) = .ok (p ++ [c]) :=
  (resolve_located hw hc).of_parent hw hp

theorem resolve_dir (hw : d.Wf) (hc : d.Clear p) (hp : d.node p = some .dir) :
    d.resolve p = .ok p := by
  rcases List.eq_nil_or_concat p with rfl | ⟨p,c,rfl⟩
  · rfl
  · rw [List.concat_eq_append] at hc hp ⊢
    exact resolve_child hw hc (hw.prefix_dir hp (List.prefix_append p [c]))

theorem isDir_iff (hw : d.Wf) (hc : d.Clear p) : d.isDir p = true ↔ d.node p = some .dir := by
  have hl := resolve_located hw hc
  rw [isDir]
  cases hr : d.resolve p with
  | ok q =>
      rw [hr] at hl
      cases hl with
      | found => simp
  | error e =>
      obtain ⟨hp,hg⟩ := hl.gone hw hr
      simp [node_of_ne hp,hg]

inductive Made (d : Disk) (p : Path) : Except IoError Unit × Disk → Prop
  | made (q : Path) (c : String) (split : p = q ++ [c]) (absent : d.entries p = none)
      (above : d.node q = some .dir) : Made d p (.ok (),d.set p (some .dir))
  | present (exist : d.node p ≠ none) : Made d p (.error .alreadyExists,d)
  | missing (q s : Path) (split : p = q ++ s) (proper : s ≠ []) (nonempty : q ≠ [])
      (gone : d.entries q = none) : Made d p (.error .notFound,d)
  | through (q s : Path) (ino : ℕ) (split : p = q ++ s) (proper : s ≠ []) (nonempty : q ≠ [])
      (file : d.entries q = some (.file ino)) : Made d p (.error .notADirectory,d)

theorem mkdir_made (hw : d.Wf) (hc : d.Clear p) : Made d p (d.mkdir p) := by
  have hl := locate_located hw (hc.mono (List.dropLast_prefix p))
  rw [mkdir]
  generalize d.locate p = r at hl
  cases hl with
  | missing q s hp hs hq hg => exact .missing q s hp hs hq hg
  | through q s ino hp hs hq hf => exact .through q s ino hp hs hq hf
  | found ha =>
      rcases List.eq_nil_or_concat p with rfl | ⟨q,c,rfl⟩
      · exact .present (by simp)
      · rw [List.concat_eq_append] at ha ⊢
        simp only [node_snoc,List.dropLast_concat] at ha ⊢
        cases hn : d.entries (q ++ [c]) with
        | some n => exact .present (by simp [hn])
        | none => exact .made q c rfl hn (by simpa using ha)

inductive Described (d : Disk) (p : Path) : Except IoError FileType → Prop
  | dir (node : d.node p = some .dir) : Described d p (.ok .dir)
  | file (ino : ℕ) (node : d.node p = some (.file ino)) : Described d p (.ok .file)
  | absent (gone : d.entries p = none) : Described d p (.error .notFound)
  | through (q s : Path) (ino : ℕ) (split : p = q ++ s) (proper : s ≠ []) (nonempty : q ≠ [])
      (file : d.entries q = some (.file ino)) : Described d p (.error .notADirectory)

theorem symlinkMetadata_described (hw : d.Wf) (hc : d.Clear p) :
    Described d p (d.symlinkMetadata p) := by
  have hl := locate_located hw (hc.mono (List.dropLast_prefix p))
  have hg' : ∀ e, d.locate p = .error e → d.entries p = none := fun e he => (hl.gone hw he).2
  rw [symlinkMetadata]
  generalize hr : d.locate p = r at hl
  cases hl with
  | missing q s hp hs hq hg =>
      exact .absent (hg' _ hr)
  | through q s ino hp hs hq hf => exact .through q s ino hp hs hq hf
  | found ha =>
      dsimp only
      cases hn : d.node p with
      | none =>
          have hp : p ≠ [] := by
            rintro rfl
            simp at hn
          exact .absent (by rwa [node_of_ne hp] at hn)
      | some n =>
          cases n with
          | dir => exact .dir hn
          | file ino => exact .file ino hn
          | link t =>
              have hp : p ≠ [] := by
                rintro rfl
                simp at hn
              rw [node_of_ne hp] at hn
              exact absurd hn (hc p (List.prefix_refl p) t)

inductive Scanned (d : Disk) (t : Target) : Except IoError Bytes → Prop
  | file (ino : ℕ) (node : d.entries t.path = some (.file ino)) (plain : t.dirOnly = false) :
      Scanned d t (.ok (d.data ino))
  | slash (ino : ℕ) (node : d.entries t.path = some (.file ino)) (slash : t.dirOnly = true) :
      Scanned d t (.error .notADirectory)
  | dir (node : d.node t.path = some .dir) : Scanned d t (.error .isADirectory)
  | absent (gone : d.entries t.path = none) : Scanned d t (.error .notFound)
  | through (q s : Path) (ino : ℕ) (split : t.path = q ++ s) (proper : s ≠ []) (nonempty : q ≠ [])
      (file : d.entries q = some (.file ino)) (gone : d.entries t.path = none) :
      Scanned d t (.error .notADirectory)

theorem read_scanned (hw : d.Wf) {t : Target} (hc : d.Clear t.path) : Scanned d t (d.read t) := by
  have hl := resolve_located hw hc
  rw [read]
  generalize hr : d.resolve t.path = r at hl
  cases hl with
  | missing q s hp hs hq hg => exact .absent ((resolve_located hw hc).gone hw hr).2
  | through q s ino hp hs hq hf =>
      exact .through q s ino hp hs hq hf ((resolve_located hw hc).gone hw hr).2
  | found ha =>
      dsimp only
      cases hn : d.node t.path with
      | none =>
          have hp : t.path ≠ [] := by
            intro h
            simp [h] at hn
          exact .absent (by rwa [node_of_ne hp] at hn)
      | some n =>
          cases n with
          | dir => exact .dir hn
          | file ino =>
              obtain ⟨-,hf⟩ := node_file.mp hn
              cases ht : t.dirOnly with
              | true => exact .slash ino hf ht
              | false => exact .file ino hf ht
          | link s =>
              have hp : t.path ≠ [] := by
                intro h
                simp [h] at hn
              rw [node_of_ne hp] at hn
              exact absurd hn (hc _ (List.prefix_refl _) s)

end Disk

end Filesystem

end Objsds
