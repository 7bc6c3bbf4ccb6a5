import Objsds.Filesystem.Calls
import Objsds.S3.Conflict

namespace Objsds

open Foundation

namespace S3

-- ETags as the servers make them: one for each content, and none that stands for every object.
structure Tags (tag : Bytes → String) : Prop where
  distinct : Function.Injective tag
  proper : ∀ b, tag b ≠ "*"

-- The header values the library sets are sent.
structure BlockingClient.Sends (client : BlockingClient) (tag : Bytes → String) : Prop where
  ifNoneMatch : client.ifNoneMatch "*" = .ok ()
  ifMatch : ∀ b, client.ifMatch (tag b) = .ok ()
  contentType : client.contentType "application/json" = .ok ()

def drawing (ev : Event SysReply) : Option Uuid :=
  match ev with
  | ⟨_,.nowV7,id⟩ => some id
  | _ => none

end S3

namespace S3Store

open S3

section Objects

variable {tag : Bytes → String} {self : S3Store} {w w' : Contents} {l : Location}

def objects (tag : Bytes → String) (self : S3Store) (w : Contents) : Objects :=
  fun l => w.objects tag (self.key l)

def store (tag : Bytes → String) (self : S3Store) : ObjectStore StoreError where
  State := Contents
  objects := self.objects tag
  step := fun w q r w' => Atomic (self.objects tag w) q r (self.objects tag w')
  atomic := id

theorem key_injective : Function.Injective self.key := by
  intro l l' h
  have htext : l.asStr = l'.asStr := congrArg Prod.snd h
  cases l
  cases l'
  simpa using htext

theorem contents_injective (tag : Bytes → String) : Function.Injective (Contents.objects tag) := by
  intro w w' h
  funext key
  have hkey := congrFun h key
  refine Option.map_injective (fun b b' hb => ?_) hkey
  exact congrArg Object.bytes hb

theorem objects_version {o : Object} (h : self.objects tag w l = some o) :
    o.version = ⟨tag o.bytes⟩ := by
  obtain ⟨bytes,-,rfl⟩ := Option.map_eq_some_iff.mp h
  rfl

theorem objects_put {b : Bytes} {v : Version}
    (h : w'.objects tag = Function.update (w.objects tag) (self.key l) (some ⟨b,v⟩)) :
    v = ⟨tag b⟩ ∧ self.objects tag w' = (self.objects tag w).put l ⟨b,v⟩ := by
  have hat : self.objects tag w' l = some ⟨b,v⟩ := by
    rw [objects,h,Function.update_self]
  refine ⟨objects_version hat,?_⟩
  funext l'
  by_cases hl : l' = l
  · subst hl
    rw [hat,Objects.put_self]
  · rw [objects,h,Function.update_of_ne (fun hk => hl (key_injective hk)),Objects.put_other _ hl]
    rfl

-- A write is applied under its condition, or nothing happens and an error is reported.
inductive Sent (tag : Bytes → String) (self : S3Store) (l : Location) (condition : Condition)
    (b : Bytes) (w w' : Contents) : Except ClientError PutResponse → Prop
  | applied (etag : Option String) (tagged : ∀ e, etag = some e → e = tag b)
      (holds : condition.Holds (self.objects tag w l))
      (put : self.objects tag w' = (self.objects tag w).put l ⟨b,⟨tag b⟩⟩) :
      Sent tag self l condition b w w' (.ok ⟨etag⟩)
  | unanswered (error : ClientError) (status : error.status = none)
      (holds : condition.Holds (self.objects tag w l))
      (put : self.objects tag w' = (self.objects tag w).put l ⟨b,⟨tag b⟩⟩) :
      Sent tag self l condition b w w' (.error error)
  | refused (error : ClientError) (same : w' = w) :
      Sent tag self l condition b w w' (.error error)

theorem sent_of_served {condition : Condition} {b : Bytes} {reply : Except ClientError PutResponse}
    (h : Serve (w.objects tag) (self.put l condition b) reply (w'.objects tag)) :
    Sent tag self l condition b w w' reply := by
  change Serve _ (.put self.config.bucket l.asStr condition "application/json" b) reply _ at h
  generalize hs : w'.objects tag = s' at h
  cases h with
  | stored _ _ _ _ _ v etag holds tagged =>
      have hs : w'.objects tag = Function.update (w.objects tag) (self.key l) (some ⟨b,v⟩) := hs
      obtain ⟨rfl,hput⟩ := objects_put hs
      exact .applied etag tagged holds hput
  | refused _ _ _ _ _ error =>
      exact .refused error (contents_injective tag hs)
  | unanswered _ _ _ _ _ v error status holds =>
      have hs : w'.objects tag = Function.update (w.objects tag) (self.key l) (some ⟨b,v⟩) := hs
      obtain ⟨rfl,hput⟩ := objects_put hs
      exact .unanswered error status holds hput

theorem got_of_served {reply : Except ClientError GetResponse}
    (h : Serve (w.objects tag) (.get self.config.bucket l.asStr) reply (w'.objects tag)) :
    w' = w ∧ ∀ found, received reply = .ok found → self.objects tag w l = found := by
  refine ⟨contents_injective tag ?_,fun found hr => received_current h hr⟩
  generalize hs : w'.objects tag = s' at h
  cases h <;> rfl

end Objects

section Calls

variable {β : Type} {tag : Bytes → String} {self : S3Store} {l : Location} {i : ℕ}

def simulation (tag : Bytes → String) (self : S3Store) :
    Simulation SysReply (Reply StoreError) Contents Contents where
  env := Tagged tag
  env' := (self.store tag).Env
  inv := Eq
  guar := fun _ _ _ _ _ => True
  shows := fun ev mark => ∀ a ∈ mark, ∀ id, identifier a.answer = some id → drawing ev = some id

def Left (q : Action StoreError β) : Assertion (Reply StoreError) Contents Contents β :=
  fun _ _ q' => q' = q

theorem left_stable (q : Action StoreError β) : (simulation tag self).Stable i (Left q) :=
  Simulation.Stable.constant (· = q)

theorem store_shows {ev : Event SysReply} {q : Objsds.Request} {r : q.Response StoreError} :
    (simulation tag self).shows ev (some ⟨i,.store q,r⟩) := by
  intro a ha id hid
  obtain rfl := Option.mem_some_iff.mp ha
  simp [identifier,Event.answer] at hid

theorem get_triple {next : Except StoreError (Option Object) → Action StoreError β} :
    (simulation tag self).Triple i (send (self.get l)) (Left (.perform (.store (.get l)) next))
      (fun r w w' q => Left (next r) w w' q ∧
        ∀ o, r = .ok (some o) → ∃ b, o.version = ⟨tag b⟩) := by
  have hsend : send (self.get l) = .perform (.http (.get self.config.bucket l.asStr))
      (fun reply => .done (received reply)) := by
    rw [get_eq]
    rfl
  rw [hsend]
  refine Simulation.Triple.step (fun reply w w' q => Left (next (received reply)) w w' q ∧
    ∀ o, received reply = .ok (some o) → ∃ b, o.version = ⟨tag b⟩) (left_stable _) ?_
    (fun reply w w' q _ hq => hq)
  rintro w w' q reply w₁ rfl rfl henv
  obtain ⟨rfl,hgot⟩ : w₁ = w ∧
      ∀ found, received reply = .ok found → self.objects tag w l = found := by
    cases henv with
    | http served => exact got_of_served served
  have hatomic : Atomic (self.objects tag w₁) (.get l) (received reply) (self.objects tag w₁) := by
    cases hr : received reply with
    | error e => exact .getFailed l e
    | ok found =>
        rw [← hgot found hr]
        exact .got l
  refine ⟨_,w₁,_,.emit (.store hatomic),store_shows,rfl,trivial,rfl,fun o ho => ?_⟩
  exact ⟨o.bytes,objects_version (hgot _ ho)⟩

def write {ρ : Type} (self : S3Store) (l : Location) (condition : Condition) (b : Bytes)
    (inspects : ClientError → Bool) (stored : Except StoreError Version → ρ)
    (refused : ClientError → Except StoreError (Option Object) → ρ) : Program SysReply ρ :=
  .perform (.http (self.put l condition b)) (fun reply =>
    match reply with
    | .ok response => .done (stored (version response.etag))
    | .error error =>
        if inspects error then
          .perform (.http (.get self.config.bucket l.asStr))
            (fun reply => .done (refused error (received reply)))
        else .done (stored (.error (.transport error))))

structure Reads (tag : Bytes → String) (s3 : S3Store) (l : Location) (condition : Condition)
    (b : Bytes) (q : Objsds.Request) (next : q.Response StoreError → Action StoreError β)
    (stored : Except StoreError Version → q.Response StoreError)
    (refused : ClientError → Except StoreError (Option Object) → q.Response StoreError) : Prop where
  applied : ∀ w, condition.Holds (s3.objects tag w l) →
    Atomic (s3.objects tag w) q (stored (.ok ⟨tag b⟩)) ((s3.objects tag w).put l ⟨b,⟨tag b⟩⟩)
  doubtful : ∀ w e, condition.Holds (s3.objects tag w l) →
    ∃ r, Atomic (s3.objects tag w) q r ((s3.objects tag w).put l ⟨b,⟨tag b⟩⟩) ∧
      next r = next (stored (.error e))
  failed : ∀ objects e, Atomic objects q (stored (.error e)) objects
  refused : ∀ objects error found, (∀ o, found = .ok o → objects l = o) →
    Atomic objects q (refused error found) objects

variable {condition : Condition} {b : Bytes} {inspects : ClientError → Bool}
  {q : Objsds.Request} {next : q.Response StoreError → Action StoreError β}
  {stored : Except StoreError Version → q.Response StoreError}
  {refused : ClientError → Except StoreError (Option Object) → q.Response StoreError}

-- The atomic call advances when the write is applied, and not before the object has been looked
-- at when it is refused.
theorem write_triple (h : Reads tag self l condition b q next stored refused)
    (hstatus : ∀ error, inspects error = true → error.status ≠ none) :
    (simulation tag self).Triple i (self.write l condition b inspects stored refused)
      (Left (.perform (.store q) next)) (fun r => Left (next r)) := by
  let after (reply : Except ClientError PutResponse) : Action StoreError β :=
    match reply with
    | .ok response => next (stored (version response.etag))
    | .error error =>
        if inspects error then .perform (.store q) next
        else next (stored (.error (.transport error)))
  refine Simulation.Triple.step (fun reply => Left (after reply)) (left_stable _) ?_ (fun reply => ?_)
  · rintro w w' p reply w₁ rfl rfl henv
    have hsent : Sent tag self l condition b w w₁ reply := by
      cases henv with
      | http served => exact sent_of_served served
    cases hsent with
    | applied etag tagged holds put =>
        cases etag with
        | none =>
            obtain ⟨r,hr,hnext⟩ := h.doubtful w .missingEtag holds
            rw [← put] at hr
            exact ⟨_,w₁,_,.emit (.store hr),store_shows,rfl,trivial,hnext⟩
        | some e =>
            obtain rfl := tagged e rfl
            have hr := h.applied w holds
            rw [← put] at hr
            exact ⟨_,w₁,_,.emit (.store hr),store_shows,rfl,trivial,rfl⟩
    | unanswered error status holds put =>
        obtain ⟨r,hr,hnext⟩ := h.doubtful w (.transport error) holds
        rw [← put] at hr
        have hleft : after (.error error) = next (stored (.error (.transport error))) :=
          if_neg (fun hi => hstatus error hi status)
        exact ⟨_,w₁,_,.emit (.store hr),store_shows,rfl,trivial,hnext.trans hleft.symm⟩
    | refused error same =>
        subst same
        cases hi : inspects error with
        | true =>
            have hleft : after (.error error) = .perform (.store q) next := if_pos hi
            exact ⟨none,w₁,_,.silent,by simp [simulation],rfl,trivial,hleft.symm⟩
        | false =>
            have hleft : after (.error error) = next (stored (.error (.transport error))) :=
              if_neg (by simp [hi])
            have hr := h.failed (self.objects tag w₁) (.transport error)
            exact ⟨_,w₁,_,.emit (.store hr),store_shows,rfl,trivial,hleft.symm⟩
  · cases reply with
    | ok response => exact fun _ _ _ _ hq => hq
    | error error =>
        simp only [after]
        split
        · refine Simulation.Triple.step (fun reply => Left (next (refused error (received reply))))
            (left_stable _) ?_ (fun reply w w' q _ hq => hq)
          rintro w w' p reply w₁ rfl rfl henv
          obtain ⟨rfl,hgot⟩ : w₁ = w ∧
              ∀ found, received reply = .ok found → self.objects tag w l = found := by
            cases henv with
            | http served => exact got_of_served served
          have hr := h.refused (self.objects tag w₁) error (received reply) hgot
          exact ⟨_,w₁,_,.emit (.store hr),store_shows,rfl,trivial,rfl⟩
        · exact fun _ _ _ _ hq => hq

theorem send_observed {γ ρ : Type} (f : Except StoreError (Option Version) → Http γ) (g : γ → ρ) :
    send (g <$> (self.observed l >>= f)) = .perform (.http (.get self.config.bucket l.asStr))
      (fun reply => send (g <$> f ((received reply).map (Option.map Object.version)))) := by
  rw [observed_bind]
  rfl

theorem create_write (hc : self.client.Sends tag) (l : Location) (b : Bytes) :
    send (self.serve (.create l b)) = self.write l (.ifNoneMatch "*") b
      (fun error => isStatus error 409 || isStatus error 412)
      (fun r => CreateReply.ofResult (r.mapError .store))
      (fun error found => CreateReply.ofResult (createAnswer error found)) := by
  have hheaders : (self.client.ifNoneMatch "*" >>= fun _ =>
      self.client.contentType "application/json") = .ok () := by
    rw [hc.ifNoneMatch,hc.contentType]
    rfl
  rw [serve,create,hheaders]
  refine congrArg (Program.perform _) (funext fun reply => ?_)
  cases reply with
  | ok response => rfl
  | error error =>
      change send (CreateReply.ofResult <$>
        (if (isStatus error 409 || isStatus error 412) = true then self.observed l >>= _ else _)) =
        if (isStatus error 409 || isStatus error 412) = true then _ else _
      split
      · rw [send_observed]
        refine congrArg (Program.perform _) (funext fun reply => ?_)
        match received reply with
        | .error source | .ok none | .ok (some o) => rfl
      · rfl

theorem replace_write (hc : self.client.Sends tag) (l : Location) (b₀ b : Bytes) :
    send (self.serve (.replace l ⟨tag b₀⟩ b)) = self.write l (.ifMatch (tag b₀)) b
      (fun error => isStatus error 404 || isStatus error 409 || isStatus error 412)
      (fun r => ReplaceReply.ofResult (r.mapError .store))
      (fun error found => ReplaceReply.ofResult (replaceAnswer error found)) := by
  have hheaders : (self.client.ifMatch (tag b₀) >>= fun _ =>
      self.client.contentType "application/json") = .ok () := by
    rw [hc.ifMatch,hc.contentType]
    rfl
  rw [serve,replace,hheaders]
  refine congrArg (Program.perform _) (funext fun reply => ?_)
  cases reply with
  | ok response => rfl
  | error error =>
      change send (ReplaceReply.ofResult <$>
        (if (isStatus error 404 || isStatus error 409 || isStatus error 412) = true then self.observed l >>= _ else _)) =
        if (isStatus error 404 || isStatus error 409 || isStatus error 412) = true then _ else _
      split
      · rw [send_observed]
        refine congrArg (Program.perform _) (funext fun reply => ?_)
        match received reply with
        | .error source | .ok found => rfl
      · rfl

theorem create_reads {next : CreateReply StoreError → Action StoreError β}
    (ho : ∀ e v, next (.uncertain e v) = next (.failed e)) :
    Reads tag self l (.ifNoneMatch "*") b (.create l b) next
      (fun r => CreateReply.ofResult (r.mapError .store))
      (fun error found => CreateReply.ofResult (createAnswer error found)) where
  applied := fun w h => .created l b _ h
  doubtful := fun w e h => ⟨_,.createUncertain l b e _ h,ho e _⟩
  failed := fun objects e => .createFailed l b e
  refused := by
    intro objects error found hfound
    match found,hfound with
    | .error e,_ => exact .createFailed l b e
    | .ok none,_ => exact .createFailed l b (StoreError.transport error)
    | .ok (some o),hfound =>
        refine .alreadyExists l b o.version ?_
        simp [hfound (some o) rfl]

theorem replace_reads {next : ReplaceReply StoreError → Action StoreError β} {b₀ : Bytes}
    (ht : Tags tag) (ho : ∀ e v, next (.uncertain e v) = next (.failed e)) :
    Reads tag self l (.ifMatch (tag b₀)) b (.replace l ⟨tag b₀⟩ b) next
      (fun r => ReplaceReply.ofResult (r.mapError .store))
      (fun error found => ReplaceReply.ofResult (replaceAnswer error found)) := by
  have hcurrent : ∀ w, (Condition.ifMatch (tag b₀)).Holds (self.objects tag w l) →
      ∃ o, self.objects tag w l = some o ∧ o.version = ⟨tag b₀⟩ := by
    rintro w ⟨o,ho,hstar | hv⟩
    · exact absurd hstar (ht.proper b₀)
    · exact ⟨o,ho,by rw [← hv]⟩
  refine ⟨fun w h => ?_,fun w e h => ?_,fun objects e => .replaceFailed l _ b e,?_⟩
  · obtain ⟨o,hw,hv⟩ := hcurrent w h
    rw [← hv]
    exact .replaced l o b _ hw
  · obtain ⟨o,hw,hv⟩ := hcurrent w h
    rw [← hv]
    exact ⟨_,.replaceUncertain l o b e _ hw,ho e _⟩
  · intro objects error found hfound
    cases found with
    | error e => exact .replaceFailed l _ b e
    | ok o => exact .conflict l _ b _

theorem create_triple {next : CreateReply StoreError → Action StoreError β}
    (hc : self.client.Sends tag) (ho : ∀ e v, next (.uncertain e v) = next (.failed e)) :
    (simulation tag self).Triple i (send (self.serve (.create l b)))
      (Left (.perform (.store (.create l b)) next)) (fun r => Left (next r)) := by
  rw [create_write hc]
  refine write_triple (create_reads ho) (fun error he => ?_)
  rcases Bool.or_eq_true_iff.mp he with he | he <;> exact isStatus_some he

theorem replace_triple {next : ReplaceReply StoreError → Action StoreError β} {b₀ : Bytes}
    (ht : Tags tag) (hc : self.client.Sends tag)
    (ho : ∀ e v, next (.uncertain e v) = next (.failed e)) :
    (simulation tag self).Triple i (send (self.serve (.replace l ⟨tag b₀⟩ b)))
      (Left (.perform (.store (.replace l ⟨tag b₀⟩ b)) next)) (fun r => Left (next r)) := by
  rw [replace_write hc]
  refine write_triple (replace_reads ht ho) (fun error he => ?_)
  simp only [Bool.or_eq_true] at he
  rcases he with (he | he) | he <;> exact isStatus_some he

end Calls

section Pools

variable {α : Type} {tag : Bytes → String} {self : S3Store} {A : ℕ → Action StoreError α}
  {w : Contents} {tr : Trace SysReply} {c : Config Contents SysReply α}

def Heedful (ok : Version → Prop) : Action StoreError α → Prop
  | .done _ => True
  | .perform (.store (.get _)) next =>
      ∀ r, (∀ o, r = .ok (some o) → ok o.version) → Heedful ok (next r)
  | .perform (.store (.create _ _)) next => ∀ r, Heedful ok (next r)
  | .perform (.store (.replace _ expected _)) next => ok expected ∧ ∀ r, Heedful ok (next r)
  | .perform .nowMillis next => ∀ r, Heedful ok (next r)
  | .perform .nowV7 next => ∀ r, Heedful ok (next r)

theorem perform_triple {i : ℕ} {A : Action StoreError α} (ht : Tags tag)
    (hc : self.client.Sends tag) (ho : Oblivious A)
    (hh : Heedful (fun v => ∃ b, v = ⟨tag b⟩) A) :
    (simulation tag self).Triple i (self.perform A) (Left A) (fun a => Left (.done a)) := by
  induction A with
  | done a => exact fun _ _ _ _ h => h
  | perform e next ih =>
      match e,next,ih,ho,hh with
      | .store (.get l),next,ih,ho,hh =>
          refine Simulation.Triple.bind get_triple (fun r => ?_)
          refine Simulation.Triple.assume (fun _ _ _ h => h.2) (fun hr => ?_)
          exact (ih r (ho.2 r) (hh r hr)).pre (fun _ _ _ _ h => h.1)
      | .store (.create l b),next,ih,ho,hh =>
          exact Simulation.Triple.bind (create_triple hc ho.1) (fun r => ih r (ho.2 r) (hh r))
      | .store (.replace l expected b),next,ih,ho,hh =>
          obtain ⟨b₀,rfl⟩ := hh.1
          exact Simulation.Triple.bind (replace_triple ht hc ho.1) (fun r => ih r (ho.2 r) (hh.2 r))
      | .nowMillis,next,ih,ho,hh =>
          refine Simulation.Triple.step (fun now => Left (next now)) (left_stable _) ?_
            (fun now => ih now (ho now) (hh now))
          rintro w w' q now w₁ rfl rfl henv
          cases henv with
          | nowMillis =>
              refine ⟨_,w,_,.emit (.nowMillis i now),?_,rfl,trivial,rfl⟩
              intro a ha id hid
              obtain rfl := Option.mem_some_iff.mp ha
              simp [identifier,Event.answer] at hid
      | .nowV7,next,ih,ho,hh =>
          refine Simulation.Triple.step (fun id => Left (next id)) (left_stable _) ?_
            (fun id => ih id (ho id) (hh id))
          rintro w w' q id w₁ rfl rfl henv
          cases henv with
          | nowV7 =>
              refine ⟨_,w,_,.emit (.nowV7 i id),?_,rfl,trivial,rfl⟩
              intro a ha id' hid
              obtain rfl := Option.mem_some_iff.mp ha
              exact hid

theorem pool_refines (ht : Tags tag) (hc : self.client.Sends tag) (ho : ∀ i, Oblivious (A i))
    (hh : ∀ i, Heedful (fun v => ∃ b, v = ⟨tag b⟩) (A i))
    (h : Run (Tagged tag) ⟨w,fun i => self.perform (A i)⟩ tr c) :
    ∃ marks m, (simulation tag self).Marks tr marks ∧
      Run (self.store tag).Env ⟨w,A⟩ marks.reduceOption m ∧ c.world = m.world ∧
      ∀ i a, c.calls i = .done a → m.calls i = .done a := by
  have hstart : (simulation tag self).Related (fun _ a => Left (.done a)) (fun _ a q => q = .done a)
      ⟨w,fun i => self.perform (A i)⟩ ⟨w,A⟩ :=
    ⟨rfl,fun i => .inl ⟨Left (A i),left_stable _,rfl,perform_triple ht hc (ho i) (hh i)⟩⟩
  have hleft : ∀ (_ : ℕ) (a : α) (w w' : Contents) (q : Action StoreError α),
      (simulation tag self).inv w w' → Left (.done a) w w' q → q = .done a :=
    fun _ _ _ _ _ _ hq => hq
  obtain ⟨marks,m,hrel,hmarks,hrun⟩ := hstart.run hleft h
  refine ⟨marks,m,hmarks,hrun,hrel.inv,fun i a ha => ?_⟩
  rcases hrel.calls i with ⟨P,-,hp,htriple⟩ | ⟨a',ha',hq⟩
  · rw [ha] at htriple
    exact htriple _ _ _ hrel.inv hp
  · rw [ha] at ha'
    rw [hq,Program.done.inj ha']

end Pools

end S3Store

end Objsds
