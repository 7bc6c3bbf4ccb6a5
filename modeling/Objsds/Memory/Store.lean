import Objsds.Store.History

namespace Objsds

open Foundation

namespace Memory

structure State where
  objects : Objects
  nextVersion : UInt64

def State.default : State := ⟨fun _ => none,0⟩

-- `next_version += 1` on a `u64`: the counter wraps where overflow checks are off.
def State.version (s : State) : Version × State :=
  let nextVersion := s.nextVersion + 1
  (⟨toString nextVersion.toNat⟩,{ s with nextVersion := nextVersion })

def get (s : State) (location : Location) : Except Empty (Option Object) × State :=
  (.ok (s.objects location),s)

def create (s : State) (location : Location) (bytes : Bytes) : CreateReply Empty × State :=
  match s.objects location with
  | some object => (.alreadyExists object.version,s)
  | none =>
      let (version,s) := s.version
      (.created version,{ s with objects := s.objects.put location ⟨bytes,version⟩ })

def replace (s : State) (location : Location) (expected : Version) (bytes : Bytes) :
    ReplaceReply Empty × State :=
  match s.objects location with
  | some object =>
      if object.version = expected then
        let (version,s) := s.version
        (.replaced version,{ s with objects := s.objects.put location ⟨bytes,version⟩ })
      else (.conflict (some object.version),s)
  | none => (.conflict none,s)

def handle (s : State) : (q : Request) → q.Response Empty × State
  | .get location => get s location
  | .create location bytes => create s location bytes
  | .replace location expected bytes => replace s location expected bytes

@[simp] theorem version_objects (s : State) : s.version.2.objects = s.objects := rfl

theorem handle_atomic (s : State) (q : Request) :
    Atomic s.objects q (handle s q).1 (handle s q).2.objects := by
  cases q with
  | get l => exact .got l
  | create l b =>
      simp only [handle,create]
      cases hl : s.objects l with
      | none => exact .created l b _ hl
      | some o => exact .alreadyExists l b o.version (by simp [hl])
  | replace l x b =>
      simp only [handle,replace]
      cases hl : s.objects l with
      | none => exact .conflict l x b none
      | some o =>
          by_cases hx : o.version = x
          · subst hx
            simp only [if_true]
            exact .replaced l o b _ hl
          · simp only [hx,if_false]
            exact .conflict l x b _

def store : ObjectStore Empty where
  State := State
  objects := State.objects
  step := fun s q r s' => handle s q = (r,s')
  atomic := by
    intro s q r s' h
    have ha := handle_atomic s q
    rw [h] at ha
    exact ha

theorem create_absent {s : State} {l : Location} (b : Bytes) (h : s.objects l = none) :
    (create s l b).2.objects l = some ⟨b,s.version.1⟩ := by
  simp [create,h,Objects.put]

theorem handle_silent {s s' : State} {q : Request} {r : q.Response Empty}
    (h : handle s q = (r,s')) (hm : mutation ⟨.store q,r⟩ = none) : s' = s := by
  cases q with
  | get l => exact (congrArg Prod.snd h).symm
  | create l b =>
      simp only [handle,create] at h
      cases hl : s.objects l with
      | some o =>
          simp only [hl,Prod.mk.injEq] at h
          exact h.2.symm
      | none =>
          simp only [hl,Prod.mk.injEq] at h
          obtain ⟨rfl,-⟩ := h
          simp [mutation,CreateReply.written] at hm
  | replace l x b =>
      simp only [handle,replace] at h
      cases hl : s.objects l with
      | none =>
          simp only [hl,Prod.mk.injEq] at h
          exact h.2.symm
      | some o =>
          simp only [hl] at h
          split at h
          · simp only [Prod.mk.injEq] at h
            obtain ⟨rfl,-⟩ := h
            simp [mutation,ReplaceReply.written] at hm
          · simp only [Prod.mk.injEq] at h
            exact h.2.symm

theorem env_silent {s s' : store.State} {ev : Event (Reply Empty)} (h : store.Env s ev s')
    (hm : mutation ev.answer = none) : s' = s := by
  cases h with
  | store hs => exact handle_silent hs hm
  | nowMillis => rfl
  | nowV7 => rfl

end Memory

end Objsds
