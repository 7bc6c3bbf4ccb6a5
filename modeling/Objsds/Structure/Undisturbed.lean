import Objsds.Structure.Procedure

namespace Objsds

open Foundation

variable {D Err ε α : Type} {m : Medium D Err ε} {o : Object} {now : UInt64}
  {h : List (Sigma (Reply ε))} {result : Except Err α}

-- What a call is answered while nobody else writes: the object it found stays current.
def Expected (o : Object) (now : UInt64) : Sigma (Reply ε) → Prop
  | ⟨.store (.get _),r⟩ => r = .ok (some o)
  | ⟨.store (.create _ _),r⟩ => r = CreateReply.alreadyExists o.version
  | ⟨.store (.replace _ _ _),r⟩ => ∃ v, r = ReplaceReply.replaced v
  | ⟨.nowMillis,r⟩ => r = now
  | ⟨.nowV7,_⟩ => True

def Undisturbed (o : Object) (now : UInt64) (h : List (Sigma (Reply ε))) : Prop :=
  ∀ x ∈ h, Expected o now x

def submission : Sigma (Reply ε) → Option (Version × Bytes)
  | ⟨.store (.replace _ expected b),_⟩ => some (expected,b)
  | _ => none

def submissions (h : List (Sigma (Reply ε))) : List (Version × Bytes) := h.filterMap submission

def replacement : Sigma (Reply ε) → Option Object
  | ⟨.store (.replace _ _ b),.replaced v⟩ => some ⟨b,v⟩
  | _ => none

def left (o : Object) (h : List (Sigma (Reply ε))) : Object :=
  ((h.filterMap replacement).getLast?).getD o

def Publishes (m : Medium D Err ε) (o : Object) (d : D) (answer : α)
    (h : List (Sigma (Reply ε))) (result : Except Err α) : Prop :=
  (∃ b, m.encode d = .ok b ∧ submissions h = [(o.version,b)] ∧ (left o h).bytes = b ∧
    result = .ok answer) ∨
  ∃ e, m.encode d = .error e ∧ submissions h = [] ∧ left o h = o ∧ result = .error e

theorem Undisturbed.tail {x : Sigma (Reply ε)} (hu : Undisturbed o now (x :: h)) :
    Undisturbed o now h :=
  fun y hy => hu y (List.mem_cons_of_mem _ hy)

def reply (o : Object) (now : UInt64) (id : Uuid) : (e : Effect) → Reply ε e
  | .store (.get _) => .ok (some o)
  | .store (.create _ _) => .alreadyExists o.version
  | .store (.replace _ _ _) => .replaced o.version
  | .nowMillis => now
  | .nowV7 => id

theorem exists_undisturbed (p : Action ε α) (o : Object) (now : UInt64) :
    ∃ h a, p.Follows h (.done a) ∧ Undisturbed o now h := by
  obtain ⟨h,a,hf,hr⟩ := p.completes (reply o now 0)
  refine ⟨h,a,hf,?_⟩
  rintro ⟨e,r⟩ hx
  obtain rfl : r = reply o now 0 e := hr _ hx
  match e with
  | .store (.get _) | .store (.create _ _) | .nowMillis => rfl
  | .nowV7 => exact trivial
  | .store (.replace _ _ _) => exact ⟨_,rfl⟩

section Inversions

theorem undisturbed_clock {next : UInt64 → Procedure D Err α} (hu : Undisturbed o now h)
    (hf : ((Procedure.clock next).program m).Follows h (.done result)) :
    ∃ h', h = ⟨.nowMillis,now⟩ :: h' ∧ ((next now).program m).Follows h' (.done result) := by
  rcases Program.follows_perform.mp hf with ⟨-,hq⟩ | ⟨r,h',rfl,hn⟩
  · simp at hq
  · obtain rfl : r = now := hu _ (List.mem_cons_self ..)
    exact ⟨h',rfl,hn⟩

theorem undisturbed_transact {plan : D → Plan D Err α} {d : D} (hd : m.decode o.bytes = .ok d)
    (hu : Undisturbed o now h)
    (hf : ((Procedure.transact plan).program m).Follows h (.done result)) :
    ∃ h', h = ⟨.store (.get m.location),.ok (some o)⟩ :: h' ∧
      ((plan d).program m o.version).Follows h' (.done result) := by
  rcases Program.follows_perform.mp hf with ⟨-,hq⟩ | ⟨r,h',rfl,hn⟩
  · simp at hq
  · obtain rfl : r = .ok (some o) := hu _ (List.mem_cons_self ..)
    have hr : m.resume plan (.ok (some o)) = (plan d).program m o.version := by
      simp [Medium.resume,Medium.snapshot,hd,Except.map]
    exact ⟨h',rfl,hr ▸ hn⟩

theorem undisturbed_respond {answer : Except Err α} {x : Version}
    (hf : ((Plan.respond answer).program m x).Follows h (.done result)) :
    h = [] ∧ result = answer := by
  obtain ⟨rfl,hr⟩ := Program.follows_done.mp hf
  exact ⟨rfl,Program.done.inj hr⟩

theorem undisturbed_generate {next : Uuid → Plan D Err α} {x : Version}
    (hf : ((Plan.generate next).program m x).Follows h (.done result)) :
    ∃ id h', h = ⟨.nowV7,id⟩ :: h' ∧ ((next id).program m x).Follows h' (.done result) := by
  rcases Program.follows_perform.mp hf with ⟨-,hq⟩ | ⟨id,h',rfl,hn⟩
  · simp at hq
  · exact ⟨id,h',rfl,hn⟩

theorem undisturbed_commit {d : D} {answer : α} (hu : Undisturbed o now h)
    (hf : ((Plan.commit d (fun _ => answer)).program m o.version).Follows h (.done result)) :
    Publishes m o d answer h result := by
  simp only [Plan.program] at hf
  split at hf
  · rename_i e he
    obtain ⟨rfl,hr⟩ := Program.follows_done.mp hf
    exact .inr ⟨e,he,rfl,rfl,Program.done.inj hr⟩
  · rename_i b hb
    rcases Program.follows_perform.mp hf with ⟨-,hq⟩ | ⟨r,h',rfl,hn⟩
    · simp at hq
    · obtain ⟨v,rfl⟩ : ∃ v, r = ReplaceReply.replaced v := hu _ (List.mem_cons_self ..)
      obtain ⟨rfl,hr⟩ := Program.follows_done.mp hn
      exact .inl ⟨b,hb,rfl,rfl,Program.done.inj hr⟩

end Inversions

theorem Publishes.cons {d : D} {answer : α} {x : Sigma (Reply ε)} (hx : submission x = none)
    (hr : replacement x = none) (hc : Publishes m o d answer h result) :
    Publishes m o d answer (x :: h) result := by
  have hs : submissions (x :: h) = submissions h := List.filterMap_cons_none hx
  have hl : left o (x :: h) = left o h := by rw [left,left,List.filterMap_cons_none hr]
  rcases hc with ⟨b,hb,hsub,hleft,hres⟩ | ⟨e,he,hsub,hleft,hres⟩
  · exact .inl ⟨b,hb,by rw [hs,hsub],by rw [hl,hleft],hres⟩
  · exact .inr ⟨e,he,by rw [hs,hsub],by rw [hl,hleft],hres⟩

end Objsds
