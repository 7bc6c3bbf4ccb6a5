import Mathlib.Data.List.Basic

namespace Objsds

def isPathSegment (value : String) : Bool :=
  !value.isEmpty && value != "." && value != ".." && !value.toList.contains '/'

def doubleSlash : List Char → Bool
  | a :: b :: rest => (a == '/' && b == '/') || doubleSlash (b :: rest)
  | _ => false

def isNormalized (value : String) : Bool :=
  !(value.isEmpty || value.toList.head? == some '/' || doubleSlash value.toList)

structure Location where
  asStr : String
  normalized : isNormalized asStr = true
deriving DecidableEq

structure InvalidLocation where
deriving DecidableEq

def Location.new (value : String) : Except InvalidLocation Location :=
  if h : isNormalized value = true then .ok ⟨value,h⟩ else .error ⟨⟩

def structureText (ns kind name : String) : String :=
  ns ++ "/" ++ kind ++ "/" ++ name ++ ".json"

def Location.structure (ns kind name : String) : Except InvalidLocation Location :=
  if [ns,kind,name].all isPathSegment then Location.new (structureText ns kind name) else .error ⟨⟩

theorem isPathSegment_iff {value : String} :
    isPathSegment value = true ↔
      value ≠ "" ∧ value ≠ "." ∧ value ≠ ".." ∧ '/' ∉ value.toList := by
  simp [isPathSegment,and_assoc]

theorem doubleSlash_append {cs ds : List Char} (hc : '/' ∉ cs) (hd : ds.head? ≠ some '/') :
    doubleSlash (cs ++ '/' :: ds) = doubleSlash ds := by
  induction cs with
  | nil =>
      cases ds with
      | nil => rfl
      | cons d ds =>
          have : d ≠ '/' := by simpa using hd
          simp [doubleSlash,this]
  | cons c cs ih =>
      simp only [List.mem_cons,not_or] at hc
      have hc' : c ≠ '/' := fun h => hc.1 h.symm
      rw [← ih hc.2]
      cases cs <;> simp [doubleSlash,hc']

theorem doubleSlash_of_not_mem {cs : List Char} (hc : '/' ∉ cs) : doubleSlash cs = false := by
  induction cs with
  | nil => rfl
  | cons c cs ih =>
      simp only [List.mem_cons,not_or] at hc
      have hc' : c ≠ '/' := fun h => hc.1 h.symm
      cases cs with
      | nil => rfl
      | cons d ds => simpa [doubleSlash,hc'] using ih hc.2

theorem structureText_toList (ns kind name : String) :
    (structureText ns kind name).toList =
      ns.toList ++ '/' :: (kind.toList ++ '/' :: (name.toList ++ ".json".toList)) := by
  simp [structureText]

theorem segment_head {value : String} (h : isPathSegment value = true) :
    ∃ c cs, value.toList = c :: cs ∧ c ≠ '/' := by
  obtain ⟨hne,-,-,hs⟩ := isPathSegment_iff.mp h
  cases hv : value.toList with
  | nil =>
      rw [String.toList_eq_nil_iff] at hv
      exact absurd hv hne
  | cons c cs =>
      refine ⟨c,cs,rfl,?_⟩
      rintro rfl
      simp [hv] at hs

theorem structureText_normalized {ns kind name : String} (hns : isPathSegment ns = true)
    (hkind : isPathSegment kind = true) (hname : isPathSegment name = true) :
    isNormalized (structureText ns kind name) = true := by
  obtain ⟨a,as,ha,ha'⟩ := segment_head hns
  obtain ⟨b,bs,hb,hb'⟩ := segment_head hkind
  obtain ⟨c,cs,hc,hc'⟩ := segment_head hname
  obtain ⟨-,-,-,hs⟩ := isPathSegment_iff.mp hns
  obtain ⟨-,-,-,hk⟩ := isPathSegment_iff.mp hkind
  obtain ⟨-,-,-,hn⟩ := isPathSegment_iff.mp hname
  have hlast : '/' ∉ name.toList ++ ".json".toList := by
    simp only [List.mem_append,not_or]
    exact ⟨hn,by decide⟩
  have hd : doubleSlash (structureText ns kind name).toList = false := by
    rw [structureText_toList,doubleSlash_append hs (by simp [hb,hb']),
      doubleSlash_append hk (by simp [hc,hc']),doubleSlash_of_not_mem hlast]
  have hhead : (structureText ns kind name).toList.head? = some a := by
    simp [structureText_toList,ha]
  have hempty : (structureText ns kind name).isEmpty = false := by
    simp [structureText]
  simp [isNormalized,hd,hhead,hempty,ha']

theorem Location.structure_eq {ns kind name : String} (hns : isPathSegment ns = true)
    (hkind : isPathSegment kind = true) (hname : isPathSegment name = true) :
    Location.structure ns kind name =
      .ok ⟨structureText ns kind name,structureText_normalized hns hkind hname⟩ := by
  simp [Location.structure,Location.new,hns,hkind,hname,structureText_normalized]

end Objsds
