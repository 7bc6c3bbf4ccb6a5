import Objsds.Store.Hex

namespace Objsds

namespace Filesystem

abbrev Path := List String

inductive Component where
  | rootDir
  | curDir
  | parentDir
  | normal (name : String)
deriving DecidableEq

def segments : List Char → List (List Char)
  | [] => [[]]
  | c :: cs =>
      if c = '/' then [] :: segments cs
      else match segments cs with
        | [] => [[c]]
        | s :: rest => (c :: s) :: rest

def laterComponent (segment : List Char) : Option Component :=
  if segment = [] ∨ segment = ['.'] then none
  else if segment = ['.','.'] then some .parentDir
  else some (.normal (String.ofList segment))

def firstComponent (segment : List Char) (rest : List (List Char)) : Option Component :=
  if segment = [] then (if rest = [] then none else some .rootDir)
  else if segment = ['.'] then some .curDir
  else laterComponent segment

-- `Path::components`: empty and `.` segments count at the front only.
def components (text : String) : List Component :=
  match segments text.toList with
  | [] => []
  | s :: rest => (firstComponent s rest).toList ++ rest.filterMap laterComponent

def Component.name : Component → Option String
  | .normal name => some name
  | _ => none

def names (text : String) : List String := (components text).filterMap Component.name

def accepted (text : String) : Bool := (components text).all (fun c => c.name.isSome)

-- A path that ends in `/` or `/.` resolves to a directory or to nothing.
def dirOnly (text : String) : Bool :=
  match segments text.toList with
  | [] => false
  | _ :: rest => rest.getLast? = some [] || rest.getLast? = some ['.']

-- A path whose last name is `.` is followed one step further.
def endsInDot (text : String) : Bool :=
  match segments text.toList with
  | [] => false
  | _ :: rest => (rest.filter (· ≠ [])).getLast? = some ['.']

structure Target where
  path : Path
  dirOnly : Bool
  endsInDot : Bool
deriving DecidableEq

def parent : Path → Option Path
  | [] => none
  | path => some path.dropLast

def join (root : Path) (location : Location) : Target :=
  ⟨root ++ names location.asStr,dirOnly location.asStr,endsInDot location.asStr⟩

def lockDir : String := ".objsds-locks"

def lockName (location : Location) : String :=
  String.ofList (hexText location.asStr.toUTF8.data.toList) ++ ".lock"

def lockPath (root : Path) (location : Location) : Path := root ++ [lockDir,lockName location]

def temporaryName (id : Uuid) : String := ".objsds-" ++ id.text ++ ".tmp"

section Names

theorem lockName_injective : Function.Injective lockName := by
  intro l l' h
  have hl := congrArg String.toList h
  simp only [lockName,String.toList_append,String.toList_ofList,List.append_cancel_right_eq] at hl
  have hb := hexText_injective hl
  have hs : l.asStr = l'.asStr := by
    refine String.toByteArray_inj.mp ?_
    exact ByteArray.ext (Array.toList_inj.mp hb)
  cases l
  cases l'
  simpa using hs

theorem lockPath_injective {root : Path} {l l' : Location}
    (h : lockPath root l = lockPath root l') : l = l' := by
  have hn := List.append_cancel_left h
  simp only [List.cons.injEq,and_true,true_and] at hn
  exact lockName_injective hn

theorem temporaryName_injective : Function.Injective temporaryName := by
  intro x y h
  have hl := congrArg String.toList h
  simp only [temporaryName,String.toList_append,List.append_assoc,List.append_cancel_left_eq,
    List.append_cancel_right_eq] at hl
  exact Uuid.text_injective (String.toList_inj.mp hl)

theorem temporaryName_last (id : Uuid) : (temporaryName id).toList.getLast? = some 'p' := by
  rw [temporaryName,String.toList_append,List.getLast?_append]
  rfl

theorem lockName_last (l : Location) : (lockName l).toList.getLast? = some 'k' := by
  rw [lockName,String.toList_append,List.getLast?_append]
  rfl

theorem jsonName_last (name : String) : (name ++ ".json").toList.getLast? = some 'n' := by
  rw [String.toList_append,List.getLast?_append]
  rfl

theorem lockName_ne_temporaryName (l : Location) (id : Uuid) : lockName l ≠ temporaryName id := by
  intro h
  have hl := lockName_last l
  rw [h,temporaryName_last] at hl
  simp at hl

theorem jsonName_ne_temporaryName (name : String) (id : Uuid) :
    name ++ ".json" ≠ temporaryName id := by
  intro h
  have hl := jsonName_last name
  rw [h,temporaryName_last] at hl
  simp at hl

end Names

section Segments

theorem segments_ne_nil (cs : List Char) : segments cs ≠ [] := by
  cases cs with
  | nil => simp [segments]
  | cons c cs =>
      simp only [segments]
      split
      · simp
      · split <;> simp

theorem segments_of_not_mem {cs : List Char} (h : '/' ∉ cs) : segments cs = [cs] := by
  induction cs with
  | nil => rfl
  | cons c cs ih =>
      simp only [List.mem_cons,not_or] at h
      simp [segments,Ne.symm h.1,ih h.2]

theorem segments_append {cs ds : List Char} (h : '/' ∉ cs) :
    segments (cs ++ '/' :: ds) = cs :: segments ds := by
  induction cs with
  | nil => simp [segments]
  | cons c cs ih =>
      simp only [List.mem_cons,not_or] at h
      rw [List.cons_append,segments,if_neg (Ne.symm h.1),ih h.2]

theorem laterComponent_segment {value : String} (h : isPathSegment value = true) :
    laterComponent value.toList = some (.normal value) := by
  obtain ⟨hne,hdot,hdots,-⟩ := isPathSegment_iff.mp h
  have h₁ : value.toList ≠ [] := fun he => hne (String.toList_eq_nil_iff.mp he)
  have h₂ : value.toList ≠ ['.'] := fun he => hdot (String.toList_inj.mp he)
  have h₃ : value.toList ≠ ['.','.'] := fun he => hdots (String.toList_inj.mp he)
  simp [laterComponent,h₁,h₂,h₃]

theorem isPathSegment_json {name : String} (h : isPathSegment name = true) :
    isPathSegment (name ++ ".json") = true := by
  obtain ⟨-,-,-,hs⟩ := isPathSegment_iff.mp h
  refine isPathSegment_iff.mpr ⟨?_,?_,?_,?_⟩
  · intro he
    simpa using congrArg String.toList he
  · intro he
    have := congrArg (fun s => s.toList.length) he
    simp at this
  · intro he
    have := congrArg (fun s => s.toList.length) he
    simp at this
  · simp only [String.toList_append,List.mem_append,not_or]
    exact ⟨hs,by decide⟩

theorem firstComponent_isSome {segment : List Char} (rest : List (List Char)) (h : segment ≠ []) :
    ∃ c, firstComponent segment rest = some c := by
  by_cases hdot : segment = ['.']
  · exact ⟨.curDir,by simp [firstComponent,hdot]⟩
  · by_cases hdots : segment = ['.','.']
    · exact ⟨.parentDir,by simp [firstComponent,laterComponent,hdots]⟩
    · exact ⟨.normal (String.ofList segment),by simp [firstComponent,laterComponent,h,hdot,hdots]⟩

theorem segments_cons {c : Char} {cs : List Char} (h : c ≠ '/') :
    ∃ s rest, segments (c :: cs) = (c :: s) :: rest := by
  rw [segments,if_neg h]
  split
  · exact ⟨[],[],rfl⟩
  · exact ⟨_,_,rfl⟩

theorem names_ne_nil (l : Location) (h : accepted l.asStr = true) : names l.asStr ≠ [] := by
  have hn := l.normalized
  simp only [isNormalized,Bool.not_eq_true',Bool.or_eq_false_iff] at hn
  obtain ⟨⟨hempty,hhead⟩,-⟩ := hn
  obtain ⟨c,cs,hcs⟩ : ∃ c cs, l.asStr.toList = c :: cs := by
    cases ht : l.asStr.toList with
    | nil =>
        rw [String.toList_eq_nil_iff] at ht
        simp [ht] at hempty
    | cons c cs => exact ⟨c,cs,rfl⟩
  have hc : c ≠ '/' := by
    rintro rfl
    simp [hcs] at hhead
  obtain ⟨s,rest,hs⟩ := @segments_cons c cs hc
  obtain ⟨x,hx⟩ := firstComponent_isSome rest (List.cons_ne_nil c s)
  have hcomp : components l.asStr = x :: rest.filterMap laterComponent := by
    simp [components,hcs,hs,hx]
  rw [accepted,hcomp,List.all_cons,Bool.and_eq_true] at h
  obtain ⟨name,hname⟩ := Option.isSome_iff_exists.mp h.1
  simp [names,hcomp,hname]

end Segments

end Filesystem

end Objsds
