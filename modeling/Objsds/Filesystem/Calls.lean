import Objsds.Filesystem.Publishing
import Objsds.Store.History

namespace Objsds

open Foundation FilesystemStore

variable {ε α : Type}

def Request.location : Request → Location
  | .get l => l
  | .create l _ => l
  | .replace l _ _ => l

theorem Request.stores_location {rq : Request} {l : Location} {r : rq.Response ε} {o : Object}
    (h : rq.stores l r = some o) : rq.location = l := by
  cases rq with
  | get l' => simp [Request.stores] at h
  | create l' b =>
      simp only [Request.stores] at h
      split at h
      · assumption
      · simp at h
  | replace l' x b =>
      simp only [Request.stores] at h
      split at h
      · assumption
      · simp at h

theorem Request.stores_failed (rq : Request) (l : Location) (e : ε) :
    rq.stores l (rq.failed e) = none := by
  cases rq <;> simp [Request.stores,Request.failed,CreateReply.written,ReplaceReply.written]

theorem Request.Writes.stores {rq : Request} {l : Location} {b : Bytes} {before : Option Object}
    (h : rq.Writes l b before) (v : Version) :
    rq.stores l (rq.wrote v : rq.Response ε) = some ⟨b,v⟩ := by
  cases h <;> simp [Request.stores,Request.wrote,CreateReply.written,ReplaceReply.written]

-- A caller cannot tell a write in doubt from one that failed.
def Oblivious : Action ε α → Prop
  | .done _ => True
  | .perform (.store rq) next =>
      (∀ e v, next (rq.uncertain e v) = next (rq.failed e)) ∧ ∀ r, Oblivious (next r)
  | .perform .nowMillis next => ∀ r, Oblivious (next r)
  | .perform .nowV7 next => ∀ r, Oblivious (next r)

namespace Filesystem

variable {K : Setting} {i : ℕ} {l : Location} {β : Type} {rq : Request} {ino : ℕ}
  {next : rq.Response StoreError → Action StoreError β} {mode : LockMode} {made : Prop}
  {b : Bytes} {d d₁ : Disk} {s s₁ : Ideal.State}

-- The answer on record is the one given, or the failure of a write that took effect.
def Agrees (K : Setting) (rq : Request) (r r' : rq.Response StoreError) : Prop :=
  r' = r ∨ (K.lax ∧ ∃ e v, r = rq.failed e ∧ r' = rq.uncertain e v)

def Answered (K : Setting) (next : rq.Response StoreError → Action StoreError β)
    (P : rq.Response StoreError → Fact) (r : rq.Response StoreError) :
    Assertion (Reply StoreError) Disk Ideal.State β :=
  fun d s q => P r d s ∧ ∃ r', Agrees K rq r r' ∧ q = next r'

def Stored (K : Setting) (rq : Request) (r : rq.Response StoreError) : Fact := fun d s =>
  ∀ l o, rq.stores l r = some o → s.objects l = some o ∧ Durable K l o d s

-- The lock is still held, and for writing if there was a write.
structure Fulfilled (K : Setting) (i : ℕ) (ino : ℕ) (mode : LockMode) (made : Prop) (rq : Request)
    (r : rq.Response StoreError) (d : Disk) (s : Ideal.State) : Prop where
  acquired : Acquired K i rq.location ino mode made d s
  stored : Stored K rq r d s
  writer : ∀ l o, rq.stores l r = some o → mode = .exclusive

structure Served (K : Setting) (i : ℕ) (rq : Request) (r : rq.Response StoreError) (d : Disk)
    (s : Ideal.State) : Prop where
  free : Free i d s
  stored : Stored K rq r d s

theorem Doubt.agrees {e : StoreError} {r : rq.Response StoreError} (h : Doubt K rq e r) :
    Agrees K rq (rq.failed e) r := by
  rcases h with rfl | ⟨hlax,v,rfl⟩
  · exact .inl rfl
  · exact .inr ⟨hlax,e,v,rfl,rfl⟩

theorem stored_failed (e : StoreError) : Stored K rq (rq.failed e) d s := by
  intro l o h
  rw [Request.stores_failed] at h
  simp at h

section Unlocking

theorem keeps_fulfilled (hl : K.sites rq.location) (r : rq.Response StoreError) :
    Keeps K i (Fulfilled K i ino mode made rq r) := by
  intro j hj d s d₁ s₁ hi hi₁ hg hp
  refine ⟨keeps_acquired hl j hj d s d₁ s₁ hi hi₁ hg hp.acquired,?_,hp.writer⟩
  intro l o ho
  obtain rfl := hp.writer l o ho
  obtain rfl := Request.stores_location ho
  have hnot := hp.acquired.holding.not_other hi hj
  obtain ⟨hobj,hdur⟩ := hp.stored _ o ho
  exact ⟨(hg.objects _ hl hnot).1.trans hobj,hdur.guar hi hg hl hnot⟩

theorem unlock_served {r : rq.Response StoreError} (hl : K.sites rq.location) (hi : Inv K d s)
    (h : Fulfilled K i ino mode made rq r d s) :
    Inv K (d.unlock i ino) s ∧ Guar K i d s (d.unlock i ino) s ∧
      Served K i rq r (d.unlock i ino) s := by
  have hshow : ∀ l, K.sites l → d.entries (K.lock l) = some (.file ino) →
      (i,.exclusive) ∈ d.locks ino → K.Shows d l (s.objects l) := by
    intro l hsite hfile hheld
    obtain rfl := hi.tree.ownLock l rq.location ino hsite hl hfile h.acquired.holding.file
    exact h.acquired.shows hi hl
  obtain ⟨hi₁,hg⟩ := unlock_step hi hshow
  refine ⟨hi₁,hg,?_,h.stored⟩
  intro k m hm
  obtain ⟨hm,hne⟩ := Disk.mem_unlock.mp hm
  exact hne (h.acquired.holding.alone k m hm) rfl

theorem holding_answered (hl : K.sites rq.location) {body : Fs α}
    {view : α → rq.Response StoreError} {P : Assertion (Reply StoreError) Disk Ideal.State β}
    (h : (simulation K).Triple i body P
      (fun a => Answered K next (Fulfilled K i ino mode made rq) (view a))) :
    (simulation K).Triple i (ObjectLock.holding ino body) P
      (fun a => Answered K next (Served K i rq) (view a)) := by
  refine h.bind (fun a => ?_)
  refine Simulation.Triple.step (fun _ => Answered K next (Served K i rq) (view a)) ?_ ?_
    (fun _ _ _ _ _ h => h)
  · rintro j hj d s d₁ s₁ q hi hi₁ hg ⟨hf,hq⟩
    exact ⟨keeps_fulfilled hl _ j hj d s d₁ s₁ hi hi₁ hg hf,hq⟩
  · rintro d s q r d₁ hi ⟨hf,hq⟩ henv
    cases henv with
    | exec he =>
        obtain ⟨rfl,rfl⟩ := Prod.mk.inj (Option.some.inj he)
        obtain ⟨hi₁,hg,hs⟩ := unlock_served hl hi hf
        exact ⟨none,s,q,.silent,by simp [simulation],hi₁,hg,hs,hq⟩
    | fault hf hr => simp [Sys.failure] at hr

end Unlocking

section Bodies

theorem Acquired.locked {before : Option Object}
    (h : Acquired K i l ino .exclusive True d s) (ho : s.objects l = before) :
    Locked K i l ino before d s := by
  subst ho
  exact ⟨h.holding,h.dir trivial,rfl,h.settled rfl⟩

theorem Ended.answered {before : Option Object} (hw : rq.Writes rq.location b before)
    {v : Version} {q : Action StoreError β}
    (h : At (Written K i rq.location ino ⟨b,v⟩) (next (rq.wrote v)) d s q) :
    Answered K next (Fulfilled K i ino .exclusive True rq) (rq.wrote v) d s q := by
  obtain ⟨rfl,hacq,hobj,hdur⟩ := h
  refine ⟨⟨hacq,?_,fun _ _ _ => rfl⟩,_,.inl rfl,rfl⟩
  intro l o ho
  obtain rfl := Request.stores_location ho
  rw [hw.stores] at ho
  obtain rfl := Option.some.inj ho
  exact ⟨hobj,hdur⟩

theorem fulfilled_failed {e : StoreError} (h : Acquired K i rq.location ino mode made d s) :
    Fulfilled K i ino mode made rq (rq.failed e) d s :=
  ⟨h,stored_failed e,fun l o ho => by simp [Request.stores_failed] at ho⟩

theorem fulfilled_unwritten {r : rq.Response StoreError}
    (h : Acquired K i rq.location ino mode made d s) (hr : ∀ l, rq.stores l r = none) :
    Fulfilled K i ino mode made rq r d s :=
  ⟨h,fun l o ho => by simp [hr] at ho,fun l o ho => by simp [hr] at ho⟩

theorem write_answered {ε' : Type} (hK : K.Sound) (hl : K.sites rq.location)
    {before : Option Object} (hb : K.Admits rq.location b) (hw : rq.Writes rq.location b before)
    (wrap : StoreError → ε') {view : Except ε' Version → rq.Response StoreError}
    (hok : ∀ v, view (.ok v) = rq.wrote v) (herr : ∀ e, view (.error (wrap e)) = rq.failed e) :
    (simulation K).Triple i (ExceptT.adapt wrap (write (K.object rq.location) b)).run
      (At (fun d s => Acquired K i rq.location ino .exclusive True d s ∧
        s.objects rq.location = before) (.perform (.store rq) next))
      (fun r => Answered K next (Fulfilled K i ino .exclusive True rq) (view r)) := by
  have hwrite := @write_ended K i rq.location β rq ino next before b hK hl hb hw
  refine (hwrite.adapt wrap).conseq (fun d s q _ h => ⟨h.1,h.2.1.locked h.2.2⟩)
    (fun r d s q _ h => ?_)
  cases r with
  | ok v =>
      rw [hok]
      exact Ended.answered hw h
  | error e' =>
      obtain ⟨e,rfl,hacq,r',hd,hq⟩ := h
      rw [herr]
      exact ⟨fulfilled_failed hacq,r',hd.agrees,hq⟩

theorem get_body (hK : K.Sound) (hl : K.sites l) {next : Except StoreError (Option Object) → _} :
    (simulation K).Triple (β := β) i (readPath (K.object l))
      (At (Acquired K i l ino mode made) (.perform (.store (.get l)) next))
      (fun r => Answered K next (Fulfilled K i ino mode made (.get l)) r) := by
  refine (@read_piece K i l β (.get l) ino next mode made hK hl (fun o => some (.ok o)) ?_ ?_).post
    ?_
  · intro s r hr
    obtain rfl := Option.some.inj hr
    exact .got l
  · intro o r x hr
    obtain rfl := Option.some.inj hr
    rfl
  · intro r d s q _ h
    cases r with
    | ok o => exact ⟨fulfilled_unwritten h.2 (fun _ => rfl),_,.inl rfl,h.1⟩
    | error e => exact ⟨fulfilled_failed h.2,_,.inl rfl,h.1⟩

def creation (l : Location) (b : Bytes) :
    Option Object → Option (Request.Response StoreError (.create l b))
  | some o => some (.alreadyExists o.version)
  | none => none

theorem create_body (hK : K.Sound) (hl : K.sites l) (hb : K.Admits l b)
    {next : CreateReply StoreError → _} :
    (simulation K).Triple (β := β) i (createLocked (K.object l) b)
      (At (Acquired K i l ino .exclusive True) (.perform (.store (.create l b)) next))
      (fun r => Answered K next (Fulfilled K i ino .exclusive True (.create l b))
        (CreateReply.ofResult r)) := by
  have hread := @read_piece K i l β (.create l b) ino next .exclusive True hK hl (creation l b)
    ?_ ?_
  · refine (hread.adapt CreateError.store).bindExcept (fun current => ?_) ?_
    · cases current with
      | some o =>
          intro d s q _ h
          exact ⟨fulfilled_unwritten h.2 (fun l => by simp [Request.stores,CreateReply.ofResult,
            CreateReply.written]),_,.inl rfl,h.1⟩
      | none =>
          exact @write_answered K i β (.create l b) ino next b _ hK hl none hb .create
            CreateError.store CreateReply.ofResult (fun _ => rfl) (fun _ => rfl)
    · rintro e' d s q _ ⟨e,rfl,h⟩
      exact ⟨@fulfilled_failed K i (.create l b) ino .exclusive True d s e h.2,_,.inl rfl,h.1⟩
  · intro s r hr
    cases ho : s.objects l with
    | none => simp [creation,ho] at hr
    | some o =>
        rw [ho] at hr
        obtain rfl := Option.some.inj hr
        exact .alreadyExists l b o ho
  · intro o r x hr
    cases o with
    | none => simp [creation] at hr
    | some o =>
        obtain rfl := Option.some.inj hr
        rfl

def replacement (l : Location) (expected : Version) (b : Bytes) (o : Option Object) :
    Option (Request.Response StoreError (.replace l expected b)) :=
  if o.map Object.version ≠ some expected then some (.conflict (o.map Object.version)) else none

theorem replacement_some {expected : Version} {o : Option Object}
    {r : Request.Response StoreError (.replace l expected b)}
    (h : replacement l expected b o = some r) :
    o.map Object.version ≠ some expected ∧ r = .conflict (o.map Object.version) := by
  rw [replacement] at h
  split at h
  · rename_i hne
    exact ⟨hne,(Option.some.inj h).symm⟩
  · simp at h

theorem replace_body (hK : K.Sound) (hl : K.sites l) (hb : K.Admits l b) (expected : Version)
    {next : ReplaceReply StoreError → _} :
    (simulation K).Triple (β := β) i (replaceLocked (K.object l) expected b)
      (At (Acquired K i l ino .exclusive True) (.perform (.store (.replace l expected b)) next))
      (fun r => Answered K next (Fulfilled K i ino .exclusive True (.replace l expected b))
        (ReplaceReply.ofResult r)) := by
  have hread := @read_piece K i l β (.replace l expected b) ino next .exclusive True hK hl
    (replacement l expected b) ?_ ?_
  · refine (hread.adapt ReplaceError.store).bindExcept (fun current => ?_) ?_
    · by_cases hc : current.map Object.version ≠ some expected
      · rw [if_pos hc]
        intro d s q _ h
        simp only [Simulation.Adapted,Read,replacement,if_pos hc] at h
        exact ⟨fulfilled_unwritten h.2 (fun l => by simp [Request.stores,ReplaceReply.ofResult,
          ReplaceReply.written]),_,.inl rfl,h.1⟩
      · rw [if_neg hc]
        simp only [Simulation.Adapted,Read,replacement,if_neg hc]
        obtain ⟨o,rfl,rfl⟩ := Option.map_eq_some_iff.mp (not_not.mp hc)
        exact @write_answered K i β (.replace l o.version b) ino next b _ hK hl (some o) hb
          (.replace o) ReplaceError.store ReplaceReply.ofResult (fun _ => rfl) (fun _ => rfl)
    · rintro e' d s q _ ⟨e,rfl,h⟩
      exact ⟨@fulfilled_failed K i (.replace l expected b) ino .exclusive True d s e h.2,_,.inl rfl,
        h.1⟩
  · intro s r hr
    obtain ⟨hne,rfl⟩ := replacement_some hr
    exact .conflict l expected b hne
  · intro o r x hr
    obtain ⟨-,rfl⟩ := replacement_some hr
    rfl

end Bodies

section Requests

theorem Idle.forget {made : Prop} (h : Idle K i l made d s) : Idle K i l False d s :=
  ⟨h.1,fun hf => hf.elim⟩

theorem served_failed {e : StoreError} (h : Idle K i l made d s) :
    Served K i rq (rq.failed e) d s :=
  ⟨h.1,stored_failed e⟩

theorem preparePath_piece (hK : K.Sound) (hl : K.sites l) :
    (simulation K).Triple i (preparePath ⟨K.root⟩ l).run
      (At (Idle K i l False) (.perform (.store rq) next))
      (Piece next (fun path d s => path = K.object l ∧ Idle K i l True d s) (Idle K i l False)) := by
  rw [preparePath,objectPath_bind (hK.accepted l hl)]
  refine (reject_piece hK hl (keeps_idle False) rfl).bindExcept (fun _ => ?_) (fun _ _ _ _ _ h => h)
  rw [parentOf_object (hK.accepted l hl)]
  refine (createDirAll_piece hK hl (.inl (List.prefix_refl _))).bindExcept (fun _ => ?_)
    (fun _ _ _ _ _ h => h)
  have hagain := @reject_piece K i l β rq next hK hl _ (@keeps_idle K i l True) K.root
    (names l.asStr) rfl
  refine (hagain.pre ?_).bindExcept (fun _ => ?_) ?_
  · exact fun d s q _ h => ⟨h.1,h.2.1.1,fun _ => h.2.2⟩
  · exact fun d s q _ h => ⟨h.1,rfl,h.2⟩
  · exact fun e d s q _ h => ⟨h.1,h.2.forget⟩

theorem get_served (hK : K.Sound) (hl : K.sites l) {next : Except StoreError (Option Object) → _} :
    (simulation K).Triple (β := β) i (get ⟨K.root⟩ l)
      (At (Free i) (.perform (.store (.get l)) next))
      (Answered K next (Served K i (.get l))) := by
  rw [FilesystemStore.get,objectPath_bind (hK.accepted l hl)]
  have hfirst := @reject_piece K i l β (.get l) next hK hl _ (@keeps_idle K i l False) K.root
    (names l.asStr) rfl
  refine (hfirst.pre (fun d s q _ h => ⟨h.1,h.2,fun hf => hf.elim⟩)).bindExcept (fun _ => ?_) ?_
  · refine (@acquire_piece K i l β (.get l) next .shared False hK hl).bindExcept (fun ino => ?_) ?_
    · exact holding_answered hl (get_body hK hl)
    · exact fun e d s q _ h => ⟨served_failed h.2,_,.inl rfl,h.1⟩
  · exact fun e d s q _ h => ⟨served_failed h.2,_,.inl rfl,h.1⟩

theorem write_served {ε' : Type} (hK : K.Sound) (hl : K.sites rq.location)
    {body : Target → Fs (Except ε' Version)} (wrap : StoreError → ε')
    {view : Except ε' Version → rq.Response StoreError}
    (herr : ∀ e, view (.error (wrap e)) = rq.failed e)
    (hbody : ∀ ino, (simulation K).Triple i (body (K.object rq.location))
      (At (Acquired K i rq.location ino .exclusive True) (.perform (.store rq) next))
      (fun r => Answered K next (Fulfilled K i ino .exclusive True rq) (view r))) :
    (simulation K).Triple i (ExceptT.run do
        let path ← ExceptT.adapt wrap (preparePath ⟨K.root⟩ rq.location)
        let lock ← ExceptT.adapt wrap
          (ObjectLock.acquire (lockPath K.root rq.location) .exclusive)
        ExceptT.mk (ObjectLock.holding lock (body path)))
      (At (Free i) (.perform (.store rq) next))
      (fun r => Answered K next (Served K i rq) (view r)) := by
  have hpath := @preparePath_piece K i rq.location β rq next hK hl
  refine ((hpath.pre ?_).adapt wrap).bindExcept (fun path => ?_) ?_
  · exact fun d s q _ h => ⟨h.1,h.2,fun hf => hf.elim⟩
  · refine Simulation.Triple.assume (fun _ _ _ h => h.2.1) ?_
    rintro rfl
    have hlock := @acquire_piece K i rq.location β rq next .exclusive True hK hl
    refine ((hlock.pre (fun d s q _ h => ⟨h.1,h.2.2⟩)).adapt wrap).bindExcept (fun ino => ?_) ?_
    · exact holding_answered hl (hbody ino)
    · rintro e' d s q _ ⟨e,rfl,h⟩
      rw [herr]
      exact ⟨served_failed h.2,_,.inl rfl,h.1⟩
  · rintro e' d s q _ ⟨e,rfl,h⟩
    rw [herr]
    exact ⟨served_failed h.2,_,.inl rfl,h.1⟩

-- The location is in use, and what a write would store may turn up there.
def Setting.Expects (K : Setting) (rq : Request) : Prop :=
  K.sites rq.location ∧ match rq with
    | .get _ => True
    | .create l b => K.Admits l b
    | .replace l _ b => K.Admits l b

theorem serve_served (hK : K.Sound) (hq : K.Expects rq) :
    (simulation K).Triple i (serve ⟨K.root⟩ rq) (At (Free i) (.perform (.store rq) next))
      (Answered K next (Served K i rq)) := by
  cases rq with
  | get l => exact get_served hK hq.1
  | create l b =>
      refine (@write_served K i β (.create l b) next _ hK hq.1 (fun path => createLocked path b)
        CreateError.store CreateReply.ofResult (fun _ => rfl) ?_).map (fun _ _ _ _ _ h => h)
      exact fun ino => create_body hK hq.1 hq.2
  | replace l x b =>
      refine (@write_served K i β (.replace l x b) next _ hK hq.1
        (fun path => replaceLocked path x b) ReplaceError.store ReplaceReply.ofResult
        (fun _ => rfl) ?_).map (fun _ _ _ _ _ h => h)
      exact fun ino => replace_body hK hq.1 hq.2 x

end Requests

section Actions

variable {A : Action StoreError β}

def Setting.Serves (K : Setting) (A : Action StoreError β) : Prop :=
  A.Only (fun e => ∀ rq, e = .store rq → K.Expects rq)

theorem Agrees.same {r r' : rq.Response StoreError} (h : Agrees K rq r r')
    (hsame : K.lax → ∀ e v, next (rq.uncertain e v) = next (rq.failed e)) : next r' = next r := by
  rcases h with rfl | ⟨hlax,e,v,rfl,rfl⟩
  · rfl
  · exact hsame hlax e v

theorem perform_triple (hK : K.Sound) (hA : K.Serves A) (ho : K.lax → Oblivious A) :
    (simulation K).Triple i (perform ⟨K.root⟩ A) (At (Free i) A)
      (fun a => At (Free i) (.done a)) := by
  induction A with
  | done a => exact fun _ _ _ _ h => h
  | perform e next ih =>
      cases e with
      | store rq =>
          refine (serve_served hK (hA.1 rq rfl)).bind (fun r => ?_)
          refine (ih r (hA.2 r) (fun hlax => (ho hlax).2 r)).pre ?_
          rintro d s q _ ⟨hs,r',hr,rfl⟩
          exact ⟨hr.same (fun hlax => (ho hlax).1),hs.free⟩
      | nowMillis =>
          refine Simulation.Triple.step (fun now => At (Free i) (next now))
            ((keeps_free i).stable _) ?_ (fun now => ih now (hA.2 now) (fun hlax => ho hlax now))
          rintro d s q now d₁ hi ⟨rfl,hfree⟩ henv
          have hd : d₁ = d := by
            cases henv with
            | nowMillis => rfl
            | exec he => simp [Disk.exec] at he
            | fault _ hr => simp [Sys.failure] at hr
          subst hd
          refine ⟨_,s,_,.emit (.nowMillis i now),?_,hi,Guar.refl i d₁ s,rfl,hfree⟩
          intro a ha
          obtain rfl := Option.mem_some_iff.mp ha
          exact rfl
      | nowV7 =>
          refine Simulation.Triple.step (fun id => At (Free i) (next id))
            ((keeps_free i).stable _) ?_ (fun id => ih id (hA.2 id) (fun hlax => ho hlax id))
          rintro d s q id d₁ hi ⟨rfl,hfree⟩ henv
          obtain ⟨hid,rfl⟩ := nowV7_env henv
          obtain ⟨hi₁,hg⟩ := draw_step hi hid i
          refine ⟨_,s,_,.emit (.nowV7 i id),?_,hi₁,hg,rfl,hfree⟩
          intro a ha
          obtain rfl := Option.mem_some_iff.mp ha
          exact rfl

end Actions

end Filesystem

end Objsds
