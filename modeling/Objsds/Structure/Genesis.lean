import Objsds.Structure.Procedure

namespace Objsds

open Foundation

variable {D Err ε α H : Type}

inductive Lifecycle where
  | create
  | openExisting
  | openOrCreate
deriving DecidableEq

structure Genesis (D Err ε : Type) extends Medium D Err ε where
  emptyBytes : Except Err Bytes
  alreadyExists : Version → Err

namespace Genesis

def inspect (g : Genesis D Err ε) : Action ε (Except Err Unit) :=
  .perform (.store (.get g.location)) (fun r => .done ((g.snapshot r).map (fun _ => ())))

def establish (g : Genesis D Err ε) (lost : Version → Action ε (Except Err Unit)) :
    Action ε (Except Err Unit) :=
  match g.emptyBytes with
  | .error e => .done (.error e)
  | .ok bytes => .perform (.store (.create g.location bytes)) (fun r =>
      match CreateReply.result r with
      | .ok _ => .done (.ok ())
      | .error (.alreadyExists observed) => lost observed
      | .error (.store source) => .done (.error (g.storeError source)))

def program (g : Genesis D Err ε) : Lifecycle → Action ε (Except Err Unit)
  | .create => g.establish (fun observed => .done (.error (g.alreadyExists observed)))
  | .openExisting => g.inspect
  | .openOrCreate => .perform (.store (.get g.location)) (fun r =>
      match r with
      | .error source => .done (.error (g.storeError source))
      | .ok (some _) => g.inspect
      | .ok none => g.establish (fun _ => g.inspect))

theorem inspect_eq (g : Genesis D Err ε) {read : Fallible ε Err (Version × D)}
    (hread : read.run = .perform (.store (.get g.location)) (fun r => .done (g.snapshot r)))
    (handle : H) :
    (do let _ ← read; return handle : Fallible ε Err H).run =
      (fun r => r.map (fun _ => handle)) <$> g.inspect := by
  rw [fallible_bind_run,hread,inspect,map_eq_pure_bind]
  simp only [Program.perform_bind,Program.done_bind,Program.pure_eq]
  congr 1
  funext r
  cases g.snapshot r <;> rfl

section Histories

variable {g : Genesis D Err ε} {h : List (Sigma (Reply ε))} {e : Err}

theorem inspect_silent {r : Except Err Unit} (hf : g.inspect.Follows h (.done r)) :
    ∀ x ∈ h, mutation x = none := by
  rcases Program.follows_perform.mp hf with ⟨-,hd⟩ | ⟨r,h',rfl,hn⟩
  · simp at hd
  · obtain ⟨rfl,-⟩ := Program.follows_done.mp hn
    intro x hx
    rw [List.mem_singleton.mp hx]
    rfl

theorem establish_silent {lost : Version → Action ε (Except Err Unit)}
    (hlost : ∀ {v h}, (lost v).Follows h (.done (.error e)) → ∀ x ∈ h, mutation x = none)
    (hs : ∀ source, e ≠ g.storeError source)
    (hf : (g.establish lost).Follows h (.done (.error e))) : ∀ x ∈ h, mutation x = none := by
  unfold establish at hf
  split at hf
  · obtain ⟨rfl,-⟩ := Program.follows_done.mp hf
    simp
  · rcases Program.follows_perform.mp hf with ⟨-,hd⟩ | ⟨r,h',rfl,hn⟩
    · simp at hd
    · cases r with
      | created v =>
          obtain ⟨-,hd⟩ := Program.follows_done.mp hn
          simp at hd
      | failed source =>
          obtain ⟨-,hd⟩ := Program.follows_done.mp hn
          exact absurd (Except.error.inj (Program.done.inj hd)) (hs source)
      | uncertain source v =>
          obtain ⟨-,hd⟩ := Program.follows_done.mp hn
          exact absurd (Except.error.inj (Program.done.inj hd)) (hs source)
      | alreadyExists observed =>
          intro x hx
          rcases List.mem_cons.mp hx with rfl | hx
          · rfl
          · exact hlost hn x hx

theorem silent (step : Lifecycle) (hs : ∀ source, e ≠ g.storeError source)
    (hf : (g.program step).Follows h (.done (.error e))) : ∀ x ∈ h, mutation x = none := by
  cases step with
  | create =>
      refine establish_silent ?_ hs hf
      intro v h hd
      obtain ⟨rfl,-⟩ := Program.follows_done.mp hd
      simp
  | openExisting => exact inspect_silent hf
  | openOrCreate =>
      rcases Program.follows_perform.mp hf with ⟨-,hd⟩ | ⟨r,h',rfl,hn⟩
      · simp at hd
      · intro x hx
        rcases List.mem_cons.mp hx with rfl | hmem
        · rfl
        · match r,hn with
          | .error source,hn =>
              obtain ⟨rfl,-⟩ := Program.follows_done.mp hn
              simp at hmem
          | .ok (some o),hn => exact inspect_silent hn x hmem
          | .ok none,hn => exact establish_silent (fun hf => inspect_silent hf) hs hn x hmem

theorem establish_effect {lost : Version → Action ε (Except Err Unit)} {e : Effect}
    {next : Reply ε e → Action ε (Except Err Unit)}
    (hlost : ∀ {v h}, (lost v).Follows h (.perform e next) → e = .store (.get g.location))
    (hf : (g.establish lost).Follows h (.perform e next)) :
    e = .store (.get g.location) ∨
      ∃ b, e = .store (.create g.location b) ∧ g.emptyBytes = .ok b := by
  unfold establish at hf
  split at hf
  · simp at hf
  · rename_i bytes hb
    rcases Program.follows_perform.mp hf with ⟨-,hq⟩ | ⟨r,h',rfl,hn⟩
    · exact .inr ⟨bytes,(Program.perform.inj hq).1,hb⟩
    · cases r with
      | alreadyExists observed => exact .inl (hlost hn)
      | created v | failed source | uncertain source v => simp [CreateReply.result] at hn

theorem inspect_effect {e : Effect} {next : Reply ε e → Action ε (Except Err Unit)}
    (hf : g.inspect.Follows h (.perform e next)) : e = .store (.get g.location) := by
  rcases Program.follows_perform.mp hf with ⟨-,hq⟩ | ⟨r,h',rfl,hn⟩
  · exact (Program.perform.inj hq).1
  · simp at hn

theorem effect_inv {step : Lifecycle} {e : Effect} {next : Reply ε e → Action ε (Except Err Unit)}
    (hf : (g.program step).Follows h (.perform e next)) :
    e = .store (.get g.location) ∨
      ∃ b, e = .store (.create g.location b) ∧ g.emptyBytes = .ok b := by
  cases step with
  | create => exact establish_effect (fun hl => by simp at hl) hf
  | openExisting => exact .inl (inspect_effect hf)
  | openOrCreate =>
      rcases Program.follows_perform.mp hf with ⟨-,hq⟩ | ⟨r,h',rfl,hn⟩
      · exact .inl (Program.perform.inj hq).1
      · match r,hn with
        | .error source,hn => simp at hn
        | .ok (some o),hn => exact .inl (inspect_effect hn)
        | .ok none,hn => exact establish_effect inspect_effect hn

theorem create_ok {r : Unit} (hf : (g.program .create).Follows h (.done (.ok r))) :
    ∃ b v, ⟨.store (.create g.location b),CreateReply.created v⟩ ∈ h := by
  simp only [program,establish] at hf
  split at hf
  · simp at hf
  · rename_i bytes _
    rcases Program.follows_perform.mp hf with ⟨-,hd⟩ | ⟨r,h',rfl,hn⟩
    · simp at hd
    · cases r with
      | created v => exact ⟨bytes,v,by simp⟩
      | alreadyExists observed | failed source | uncertain source v =>
          simp [CreateReply.result] at hn

theorem inspect_done {r : Except Err Unit} (hf : g.inspect.Follows h (.done r)) :
    ∃ reply, h = [⟨.store (.get g.location),reply⟩] ∧
      r = (g.snapshot reply).map (fun _ => ()) := by
  rcases Program.follows_perform.mp hf with ⟨-,hd⟩ | ⟨reply,h',rfl,hn⟩
  · simp at hd
  · obtain ⟨rfl,hr⟩ := Program.follows_done.mp hn
    exact ⟨reply,rfl,Program.done.inj hr⟩

inductive Admitted (g : Genesis D Err ε) (h : List (Sigma (Reply ε))) : Except Err Unit → Prop
  | failed (r : Except Err Unit) (x : Sigma (Reply ε)) (mem : x ∈ h) (failed : storeFailed x) :
      Admitted g h r
  | created (b : Bytes) (v : Version)
      (won : ⟨.store (.create g.location b),CreateReply.created v⟩ ∈ h) : Admitted g h (.ok ())
  | inspected (h' : List (Sigma (Reply ε))) (x : Sigma (Reply ε))
      (reply : Except ε (Option Object)) (seen : x ∈ h') (shown : shows g.location x)
      (last : h = h' ++ [⟨.store (.get g.location),reply⟩]) :
      Admitted g h ((g.snapshot reply).map (fun _ => ()))

theorem establish_inv {lost : Version → Action ε (Except Err Unit)} {r : Except Err Unit}
    {b : Bytes} (hb : g.emptyBytes = .ok b) (hf : (g.establish lost).Follows h (.done r)) :
    (∃ x ∈ h, storeFailed x) ∨
      (∃ v, ⟨.store (.create g.location b),CreateReply.created v⟩ ∈ h ∧ r = .ok ()) ∨
      ∃ v h', h = ⟨.store (.create g.location b),.alreadyExists v⟩ :: h' ∧
        (lost v).Follows h' (.done r) := by
  simp only [establish,hb] at hf
  rcases Program.follows_perform.mp hf with ⟨-,hd⟩ | ⟨reply,h',rfl,hn⟩
  · simp at hd
  · cases reply with
    | created v =>
        obtain ⟨rfl,hr⟩ := Program.follows_done.mp hn
        exact .inr (.inl ⟨v,by simp,Program.done.inj hr⟩)
    | failed source => exact .inl ⟨_,List.mem_cons_self ..,source,rfl⟩
    | uncertain source v => exact .inl ⟨_,List.mem_cons_self ..,source,rfl⟩
    | alreadyExists observed => exact .inr (.inr ⟨observed,h',rfl,hn⟩)

theorem openOrCreate_inv {r : Except Err Unit} {b : Bytes} (hb : g.emptyBytes = .ok b)
    (hf : (g.program .openOrCreate).Follows h (.done r)) : g.Admitted h r := by
  rcases Program.follows_perform.mp hf with ⟨-,hd⟩ | ⟨reply,h',rfl,hn⟩
  · simp at hd
  · match reply,hn with
    | .error source,hn => exact .failed r _ (List.mem_cons_self ..) ⟨source,rfl⟩
    | .ok (some o),hn =>
        obtain ⟨last,rfl,rfl⟩ := inspect_done hn
        have hs : shows g.location (⟨.store (.get g.location),.ok (some o)⟩ : Sigma (Reply ε)) :=
          ⟨rfl,o,rfl⟩
        exact .inspected [_] _ last (List.mem_singleton_self _) hs rfl
    | .ok none,hn =>
        rcases establish_inv hb hn with ⟨x,hx,hs⟩ | ⟨v,hv,rfl⟩ | ⟨v,h',rfl,hl⟩
        · exact .failed r x (List.mem_cons_of_mem _ hx) hs
        · exact .created b v (List.mem_cons_of_mem _ hv)
        · obtain ⟨last,rfl,rfl⟩ := inspect_done hl
          have hs : shows g.location
              (⟨.store (.create g.location b),.alreadyExists v⟩ : Sigma (Reply ε)) := rfl
          exact .inspected [_,_] _ last (List.mem_cons_of_mem _ (List.mem_singleton_self _)) hs rfl

end Histories

end Genesis

end Objsds
