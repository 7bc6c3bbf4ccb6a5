import Objsds.Foundation.Results
import Objsds.S3.Store

namespace Objsds

open Foundation

namespace S3

abbrev Server := String × String → Option Object

def Condition.Holds : Condition → Option Object → Prop
  | .none, _ => True
  | .ifNoneMatch etag, o => if etag = "*" then o = .none else ∀ x, o = some x → x.version.asStr ≠ etag
  | .ifMatch etag, o => ∃ x, o = some x ∧ (etag = "*" ∨ x.version.asStr = etag)

-- A request is applied at one instant. An error status says that it was not applied; a request
-- without an answer may have been.
inductive Serve (s : Server) : (q : Request) → Response q → Server → Prop
  | found (bucket key : String) (o : Object) (etag : Option String)
      (bytes : Except ClientError Bytes) (current : s (bucket,key) = some o)
      (tagged : ∀ e, etag = some e → e = o.version.asStr)
      (whole : ∀ b, bytes = .ok b → b = o.bytes) :
      Serve s (.get bucket key) (.ok ⟨etag,bytes⟩) s
  | missing (bucket key : String) (error : ClientError) (absent : s (bucket,key) = none)
      (status : error.status = some 404) : Serve s (.get bucket key) (.error error) s
  | unread (bucket key : String) (error : ClientError) (status : error.status ≠ some 404) :
      Serve s (.get bucket key) (.error error) s
  | stored (bucket key : String) (condition : Condition) (contentType : String) (body : Bytes)
      (v : Version) (etag : Option String) (holds : condition.Holds (s (bucket,key)))
      (tagged : ∀ e, etag = some e → e = v.asStr) :
      Serve s (.put bucket key condition contentType body) (.ok ⟨etag⟩)
        (Function.update s (bucket,key) (some ⟨body,v⟩))
  | refused (bucket key : String) (condition : Condition) (contentType : String) (body : Bytes)
      (error : ClientError) : Serve s (.put bucket key condition contentType body) (.error error) s
  | unanswered (bucket key : String) (condition : Condition) (contentType : String) (body : Bytes)
      (v : Version) (error : ClientError) (status : error.status = none)
      (holds : condition.Holds (s (bucket,key))) :
      Serve s (.put bucket key condition contentType body) (.error error)
        (Function.update s (bucket,key) (some ⟨body,v⟩))
  | deleted (bucket key : String) (reply : Except ClientError Unit)
      (status : ∀ error, reply = .error error → error.status = none) :
      Serve s (.delete bucket key) reply (Function.update s (bucket,key) none)
  | undeleted (bucket key : String) (error : ClientError) :
      Serve s (.delete bucket key) (.error error) s

def Env (s : Server) (ev : Event Response) (s' : Server) : Prop := Serve s ev.effect ev.reply s'

end S3

namespace S3Store

open S3

def received : Except ClientError GetResponse → Except StoreError (Option Object)
  | .ok response => do
      let version ← version response.etag
      let bytes ← response.bytes.mapError StoreError.transport
      return some ⟨bytes,version⟩
  | .error error => if isStatus error 404 then .ok none else .error (.transport error)

section Histories

variable {self : S3Store} {location : Location} {h : List (Sigma Response)}

theorem get_eq (self : S3Store) (location : Location) : self.get location =
    .perform (.get self.config.bucket location.asStr) (fun reply => .done (received reply)) := by
  rw [get,Program.request_bind]
  congr 1
  funext reply
  cases reply with
  | ok response => rfl
  | error error =>
      simp only [received]
      split <;> rfl

theorem get_done {r : Except StoreError (Option Object)}
    (hf : (self.get location).Follows h (.done r)) :
    ∃ reply, h = [⟨.get self.config.bucket location.asStr,reply⟩] ∧ r = received reply := by
  rw [get_eq] at hf
  rcases Program.follows_perform.mp hf with ⟨-,hq⟩ | ⟨reply,h',rfl,hn⟩
  · simp at hq
  · obtain ⟨rfl,hr⟩ := Program.follows_done.mp hn
    exact ⟨reply,rfl,Program.done.inj hr⟩

def createAnswer (error : ClientError) :
    Except StoreError (Option Object) → Except (CreateError StoreError) Version
  | .error source => .error (.store source)
  | .ok none => .error (.store (.transport error))
  | .ok (some o) => .error (.alreadyExists o.version)

def replaceAnswer (_ : ClientError) :
    Except StoreError (Option Object) → Except (ReplaceError StoreError) Version
  | .error source => .error (.store source)
  | .ok found => .error (.conflict (found.map Object.version))

inductive Wrote {Err : Type} (self : S3Store) (location : Location) (condition : Condition)
    (bytes : Bytes) (store : StoreError → Err)
    (answer : ClientError → Except StoreError (Option Object) → Except Err Version) :
    List (Sigma Response) → Except Err Version → Prop
  | unsent (error : ClientError) :
      Wrote self location condition bytes store answer [] (.error (store (.transport error)))
  | accepted (response : PutResponse) :
      Wrote self location condition bytes store answer
        [⟨.put self.config.bucket location.asStr condition "application/json" bytes,.ok response⟩]
        ((version response.etag).mapError store)
  | failed (error : ClientError) :
      Wrote self location condition bytes store answer
        [⟨.put self.config.bucket location.asStr condition "application/json" bytes,.error error⟩]
        (.error (store (.transport error)))
  | inspected (error : ClientError) (reply : Except ClientError GetResponse)
      (status : error.status ≠ none) :
      Wrote self location condition bytes store answer
        [⟨.put self.config.bucket location.asStr condition "application/json" bytes,.error error⟩,
          ⟨.get self.config.bucket location.asStr,reply⟩]
        (answer error (received reply))

theorem isStatus_some {error : ClientError} {expected : UInt16}
    (h : isStatus error expected = true) : error.status ≠ none := by
  have hs : error.status = some expected := by simpa [isStatus] using h
  simp [hs]

theorem observed_bind {β : Type} (f : Except StoreError (Option Version) → Http β) :
    (self.observed location >>= f) = .perform (.get self.config.bucket location.asStr)
      (fun reply => f ((received reply).map (Option.map Object.version))) := by
  rw [observed,get_eq]
  rfl

theorem inspected_done {Err : Type} {condition : Condition} {bytes : Bytes}
    {store : StoreError → Err}
    {answer : ClientError → Except StoreError (Option Object) → Except Err Version}
    {f : Except StoreError (Option Version) → Http (Except Err Version)} {error : ClientError}
    {r : Except Err Version} (hstatus : error.status ≠ none)
    (hanswer : ∀ reply, f ((received reply).map (Option.map Object.version)) =
      .done (answer error (received reply)))
    (hf : (self.observed location >>= f).Follows h (.done r)) :
    Wrote self location condition bytes store answer
      (⟨.put self.config.bucket location.asStr condition "application/json" bytes,.error error⟩ :: h)
      r := by
  rw [observed_bind] at hf
  rcases Program.follows_perform.mp hf with ⟨-,hq⟩ | ⟨reply,h',rfl,hn⟩
  · simp at hq
  · rw [hanswer] at hn
    obtain ⟨rfl,hr⟩ := Program.follows_done.mp hn
    rw [Program.done.inj hr]
    exact .inspected error reply hstatus

theorem create_done {bytes : Bytes} {r : Except (CreateError StoreError) Version}
    (hf : (self.create location bytes).Follows h (.done r)) :
    Wrote self location (.ifNoneMatch "*") bytes .store createAnswer h r := by
  unfold create at hf
  split at hf
  · rename_i error _
    obtain ⟨rfl,hr⟩ := Program.follows_done.mp hf
    rw [Program.done.inj hr]
    exact .unsent error
  · rw [Program.request_bind] at hf
    rcases Program.follows_perform.mp hf with ⟨-,hq⟩ | ⟨reply,h',rfl,hn⟩
    · simp at hq
    · cases reply with
      | ok response =>
          obtain ⟨rfl,hr⟩ := Program.follows_done.mp hn
          rw [Program.done.inj hr]
          exact .accepted response
      | error error =>
          simp only at hn
          split at hn
          · rename_i hc
            have hstatus : error.status ≠ none := by
              rcases Bool.or_eq_true_iff.mp hc with hc | hc <;> exact isStatus_some hc
            refine inspected_done hstatus (fun reply => ?_) hn
            match received reply with
            | .error source | .ok none | .ok (some o) => rfl
          · obtain ⟨rfl,hr⟩ := Program.follows_done.mp hn
            rw [Program.done.inj hr]
            exact .failed error

theorem replace_done {expected : Version} {bytes : Bytes}
    {r : Except (ReplaceError StoreError) Version}
    (hf : (self.replace location expected bytes).Follows h (.done r)) :
    Wrote self location (.ifMatch expected.asStr) bytes .store replaceAnswer h r := by
  unfold replace at hf
  split at hf
  · rename_i error _
    obtain ⟨rfl,hr⟩ := Program.follows_done.mp hf
    rw [Program.done.inj hr]
    exact .unsent error
  · rw [Program.request_bind] at hf
    rcases Program.follows_perform.mp hf with ⟨-,hq⟩ | ⟨reply,h',rfl,hn⟩
    · simp at hq
    · cases reply with
      | ok response =>
          obtain ⟨rfl,hr⟩ := Program.follows_done.mp hn
          rw [Program.done.inj hr]
          exact .accepted response
      | error error =>
          simp only at hn
          split at hn
          · rename_i hc
            have hstatus : error.status ≠ none := by
              simp only [Bool.or_eq_true] at hc
              rcases hc with (hc | hc) | hc <;> exact isStatus_some hc
            refine inspected_done hstatus (fun reply => ?_) hn
            match received reply with
            | .error source | .ok found => rfl
          · obtain ⟨rfl,hr⟩ := Program.follows_done.mp hn
            rw [Program.done.inj hr]
            exact .failed error

end Histories

section Server

variable {s s' : Server} {bucket key : String}

theorem received_current {reply : Except ClientError GetResponse} {found : Option Object}
    (hs : Serve s (.get bucket key) reply s') (hr : received reply = .ok found) :
    s (bucket,key) = found := by
  cases hs with
  | found _ _ o etag bytes current tagged whole =>
      obtain ⟨v,hv,hbody⟩ := except_bind_eq_ok.mp hr
      obtain ⟨b,hb,hpair⟩ := except_bind_eq_ok.mp hbody
      cases etag with
      | none => simp [version] at hv
      | some etag =>
          obtain rfl := Except.ok.inj hv
          obtain rfl := Except.ok.inj hpair
          obtain rfl := tagged etag rfl
          obtain rfl := whole b (except_mapError_eq_ok.mp hb)
          exact current
  | missing _ _ error absent status =>
      have hs : isStatus error 404 = true := by simp [isStatus,status]
      rw [received,if_pos hs] at hr
      rw [absent,Except.ok.inj hr]
  | unread _ _ error status =>
      have hs : isStatus error 404 = false := by simpa [isStatus] using status
      simp [received,hs] at hr

theorem refused_unchanged {condition : Condition} {contentType : String} {body : Bytes}
    {error : ClientError} (hs : Serve s (.put bucket key condition contentType body) (.error error) s')
    (hstatus : error.status ≠ none) : s' = s := by
  cases hs with
  | refused => rfl
  | unanswered _ _ _ _ _ v _ status => exact absurd status hstatus

theorem accepted_stored {condition : Condition} {contentType : String} {body : Bytes}
    {response : PutResponse} {v : Version}
    (hs : Serve s (.put bucket key condition contentType body) (.ok response) s')
    (hv : version response.etag = .ok v) :
    condition.Holds (s (bucket,key)) ∧
      s' = Function.update s (bucket,key) (some ⟨body,v⟩) := by
  cases hs with
  | stored _ _ _ _ _ w etag holds tagged =>
      cases etag with
      | none => simp [version] at hv
      | some etag =>
          obtain rfl := Except.ok.inj hv
          obtain rfl := tagged etag rfl
          exact ⟨holds,rfl⟩

end Server

section Contract

variable {β : Type} {c c' : Config Server Response β} {tr : Trace Response} {i : ℕ}

def Instant (c : Config Server Response β) (tr : Trace Response) (i : ℕ)
    (P : S3.Request → Server → Server → Prop) : Prop :=
  ∃ tr₁ ev tr₂ m m', tr = tr₁ ++ ev :: tr₂ ∧ ev.call = i ∧ Run Env c tr₁ m ∧ Step Env m ev m' ∧
    P ev.effect m.world m'.world

def Refused (c : Config Server Response β) (tr : Trace Response) (i : ℕ) (put : S3.Request)
    (P : Server → Prop) : Prop :=
  ∃ tr₁ ev tr₂ ev' tr₃ m m' n, tr = tr₁ ++ ev :: (tr₂ ++ ev' :: tr₃) ∧
    Trace.of i tr = [ev.answer,ev'.answer] ∧ ev.call = i ∧ ev'.call = i ∧ ev.effect = put ∧
    ev'.effect ≠ put ∧ Run Env c tr₁ m ∧ Step Env m ev m' ∧ m'.world = m.world ∧
    Run Env m' tr₂ n ∧ P n.world

def GetMeets (self : S3Store) (location : Location) (c : Config Server Response β)
    (tr : Trace Response) (i : ℕ) (r : Except StoreError (Option Object)) : Prop :=
  ∀ found, r = .ok found →
    Instant c tr i (fun _ s _ => s (self.config.bucket,location.asStr) = found)

def put (self : S3Store) (location : Location) (condition : Condition) (bytes : Bytes) :
    S3.Request :=
  .put self.config.bucket location.asStr condition "application/json" bytes

def Applies (self : S3Store) (location : Location) (condition : Condition) (bytes : Bytes)
    (c : Config Server Response β) (tr : Trace Response) (i : ℕ) (v : Version) : Prop :=
  Instant c tr i (fun q s s' => q = self.put location condition bytes ∧
    condition.Holds (s (self.config.bucket,location.asStr)) ∧
    s' = Function.update s (self.config.bucket,location.asStr) (some ⟨bytes,v⟩))

structure CreateMeets (self : S3Store) (location : Location) (bytes : Bytes)
    (c : Config Server Response β) (tr : Trace Response) (i : ℕ)
    (r : Except (CreateError StoreError) Version) : Prop where
  applied : ∀ v, r = .ok v → self.Applies location (.ifNoneMatch "*") bytes c tr i v
  refused : ∀ v, r = .error (.alreadyExists v) →
    Refused c tr i (self.put location (.ifNoneMatch "*") bytes)
      (fun s => ∃ o, s (self.config.bucket,location.asStr) = some o ∧ o.version = v)
  inspection : ∀ x reply e,
    Trace.of i tr = [x,⟨.get self.config.bucket location.asStr,reply⟩] →
    received reply = .error e → r = .error (.store e)

structure ReplaceMeets (self : S3Store) (location : Location) (expected : Version) (bytes : Bytes)
    (c : Config Server Response β) (tr : Trace Response) (i : ℕ)
    (r : Except (ReplaceError StoreError) Version) : Prop where
  applied : ∀ v, r = .ok v → self.Applies location (.ifMatch expected.asStr) bytes c tr i v
  refused : ∀ observed, r = .error (.conflict observed) →
    Refused c tr i (self.put location (.ifMatch expected.asStr) bytes)
      (fun s => (s (self.config.bucket,location.asStr)).map Object.version = observed)
  inspection : ∀ x reply e,
    Trace.of i tr = [x,⟨.get self.config.bucket location.asStr,reply⟩] →
    received reply = .error e → r = .error (.store e)

variable {self : S3Store} {location : Location} {condition : Condition} {bytes : Bytes}

theorem serve_of_step {m m' : Config Server Response β} {ev : Event Response} {q : S3.Request}
    {reply : Response q} (hs : Step Env m ev m') (ha : ev.answer = ⟨q,reply⟩) :
    Serve m.world q reply m'.world := by
  obtain ⟨j,e,r⟩ := ev
  obtain ⟨rfl,hr⟩ := Sigma.mk.inj ha
  obtain rfl := eq_of_heq hr
  exact hs.world

theorem applies_of_accepted {response : PutResponse} {v : Version} (hrun : Run Env c tr c')
    (hof : Trace.of i tr = [⟨self.put location condition bytes,.ok response⟩])
    (hv : version response.etag = .ok v) : self.Applies location condition bytes c tr i v := by
  obtain ⟨tr₁,ev,tr₂,m,m',htr,hi,ha,hm,hs⟩ := hrun.own_one hof
  obtain ⟨hholds,hstored⟩ := accepted_stored (serve_of_step hs ha) hv
  exact ⟨tr₁,ev,tr₂,m,m',htr,hi,hm,hs,congrArg Sigma.fst ha,hholds,hstored⟩

theorem refused_of_inspected {error : ClientError} {reply : Except ClientError GetResponse}
    {found : Option Object} (hrun : Run Env c tr c')
    (hof : Trace.of i tr = [⟨self.put location condition bytes,.error error⟩,
      ⟨.get self.config.bucket location.asStr,reply⟩])
    (hstatus : error.status ≠ none) (hr : received reply = .ok found) :
    Refused c tr i (self.put location condition bytes)
      (fun s => s (self.config.bucket,location.asStr) = found) := by
  obtain ⟨tr₁,ev,tr₂,ev',tr₃,m,m',n,n',htr,hi,hi',ha,ha',hm,hs,hr',hs'⟩ := hrun.own_two hof
  have hput : ev.effect = self.put location condition bytes := congrArg Sigma.fst ha
  have hget : ev'.effect = .get self.config.bucket location.asStr := congrArg Sigma.fst ha'
  refine ⟨tr₁,ev,tr₂,ev',tr₃,m,m',n,htr,by rw [hof,ha,ha'],hi,hi',hput,?_,hm,hs,
    refused_unchanged (serve_of_step hs ha) hstatus,hr',
    received_current (serve_of_step hs' ha') hr⟩
  rw [hget]
  simp [put]

theorem Refused.imp {q : S3.Request} {P Q : Server → Prop} (hpq : ∀ s, P s → Q s)
    (h : Refused c tr i q P) : Refused c tr i q Q := by
  obtain ⟨tr₁,ev,tr₂,ev',tr₃,m,m',n,htr,hof,hi,hi',hput,hne,hm,hs,hsame,hr,hp⟩ := h
  exact ⟨tr₁,ev,tr₂,ev',tr₃,m,m',n,htr,hof,hi,hi',hput,hne,hm,hs,hsame,hr,hpq _ hp⟩

theorem get_meets {r : Except StoreError (Option Object)} (hrun : Run Env c tr c')
    (hf : (self.get location).Follows (Trace.of i tr) (.done r)) :
    GetMeets self location c tr i r := by
  obtain ⟨reply,hof,rfl⟩ := get_done hf
  intro found hr
  obtain ⟨tr₁,ev,tr₂,m,m',htr,hi,ha,hm,hs⟩ := hrun.own_one hof
  exact ⟨tr₁,ev,tr₂,m,m',htr,hi,hm,hs,received_current (serve_of_step hs ha) hr⟩

theorem create_meets {r : Except (CreateError StoreError) Version} (hrun : Run Env c tr c')
    (hf : (self.create location bytes).Follows (Trace.of i tr) (.done r)) :
    CreateMeets self location bytes c tr i r := by
  have hw := create_done hf
  generalize hof : Trace.of i tr = h at hw
  cases hw with
  | unsent error => exact ⟨by simp,by simp,by simp [hof]⟩
  | failed error => exact ⟨by simp,by simp,by simp [hof]⟩
  | accepted response =>
      refine ⟨fun v hv => ?_,fun v hv => ?_,by simp [hof]⟩
      · exact applies_of_accepted hrun hof (except_mapError_eq_ok.mp hv)
      · obtain ⟨e,-,he⟩ := except_mapError_eq_error.mp hv
        simp at he
  | inspected error reply status =>
      refine ⟨fun v hv => ?_,fun v hv => ?_,fun x reply' e ht he => ?_⟩
      · match hr : received reply with
        | .error source | .ok none | .ok (some o) => simp [hr,createAnswer] at hv
      · match hr : received reply with
        | .error source | .ok none => simp [hr,createAnswer] at hv
        | .ok (some o) =>
            have hov : o.version = v := by simpa [hr,createAnswer] using hv
            exact (refused_of_inspected hrun hof status hr).imp (fun s ho => ⟨o,ho,hov⟩)
      · have hreply : reply' = reply := by
          rw [hof] at ht
          simpa using (List.cons.inj (List.cons.inj ht).2).1.symm
        rw [← hreply,he]
        rfl

theorem replace_meets {expected : Version} {r : Except (ReplaceError StoreError) Version}
    (hrun : Run Env c tr c')
    (hf : (self.replace location expected bytes).Follows (Trace.of i tr) (.done r)) :
    ReplaceMeets self location expected bytes c tr i r := by
  have hw := replace_done hf
  generalize hof : Trace.of i tr = h at hw
  cases hw with
  | unsent error => exact ⟨by simp,by simp,by simp [hof]⟩
  | failed error => exact ⟨by simp,by simp,by simp [hof]⟩
  | accepted response =>
      refine ⟨fun v hv => ?_,fun v hv => ?_,by simp [hof]⟩
      · exact applies_of_accepted hrun hof (except_mapError_eq_ok.mp hv)
      · obtain ⟨e,-,he⟩ := except_mapError_eq_error.mp hv
        simp at he
  | inspected error reply status =>
      refine ⟨fun v hv => ?_,fun v hv => ?_,fun x reply' e ht he => ?_⟩
      · match hr : received reply with
        | .error source | .ok found => simp [hr,replaceAnswer] at hv
      · match hr : received reply with
        | .error source => simp [hr,replaceAnswer] at hv
        | .ok found =>
            have hov : found.map Object.version = v := by simpa [hr,replaceAnswer] using hv
            exact (refused_of_inspected hrun hof status hr).imp (fun s ho => by rw [ho,hov])
      · have hreply : reply' = reply := by
          rw [hof] at ht
          simpa using (List.cons.inj (List.cons.inj ht).2).1.symm
        rw [← hreply,he]
        rfl

theorem s3_meets_contract {b : β} (hrun : Run Env c tr c') (hdone : c'.calls i = .done b)
    (self : S3Store) (location : Location) :
    (∀ f, c.calls i = f <$> self.get location →
      ∃ r, f r = b ∧ GetMeets self location c tr i r) ∧
    (∀ f bytes, c.calls i = f <$> self.create location bytes →
      ∃ r, f r = b ∧ CreateMeets self location bytes c tr i r) ∧
    ∀ f expected bytes, c.calls i = f <$> self.replace location expected bytes →
      ∃ r, f r = b ∧ ReplaceMeets self location expected bytes c tr i r := by
  have hf := hrun.follows i
  rw [hdone] at hf
  refine ⟨fun f hc => ?_,fun f bytes hc => ?_,fun f expected bytes hc => ?_⟩
  · rw [hc] at hf
    obtain ⟨r,hr,hb⟩ := Program.follows_map_done.mp hf
    exact ⟨r,hb,get_meets hrun hr⟩
  · rw [hc] at hf
    obtain ⟨r,hr,hb⟩ := Program.follows_map_done.mp hf
    exact ⟨r,hb,create_meets hrun hr⟩
  · rw [hc] at hf
    obtain ⟨r,hr,hb⟩ := Program.follows_map_done.mp hf
    exact ⟨r,hb,replace_meets hrun hr⟩

end Contract

def eastern : S3Store := ⟨⟨"shop"⟩,⟨fun _ => .ok (),fun _ => .ok (),fun _ => .ok ()⟩⟩

theorem orders_normalized : isNormalized "shop/maps/orders.json" = true := by decide

def orders : Location := ⟨"shop/maps/orders.json",orders_normalized⟩

def rivals : Config Server Response (Except (CreateError StoreError) Version) :=
  ⟨fun _ => none,fun _ => id <$> eastern.create orders [1]⟩

theorem second_create_meets :
    ∃ tr c', Run Env rivals tr c' ∧ c'.calls 1 = .done (.error (.alreadyExists ⟨"e1"⟩)) ∧
      ∃ r, id r = Except.error (CreateError.alreadyExists ⟨"e1"⟩) ∧
        CreateMeets eastern orders [1] rivals tr 1 r := by
  let request := eastern.put orders (.ifNoneMatch "*") [1]
  let server : Server := Function.update (fun _ => none) ("shop",orders.asStr)
    (some ⟨[1],⟨"e1"⟩⟩)
  have hstored : server ("shop",orders.asStr) = some ⟨[1],⟨"e1"⟩⟩ := Function.update_self ..
  have hwins := @Step.perform _ _ _ _ Env rivals ⟨0,request,.ok ⟨some "e1"⟩⟩ _ server rfl
    (Serve.stored _ _ _ _ _ ⟨"e1"⟩ _ rfl (by simp))
  have hrun := Run.nil.snoc hwins
  have hrun := hrun.snoc (@Step.perform _ _ _ _ Env _ ⟨1,request,.error ⟨some 412,""⟩⟩ _ server rfl
    (Serve.refused ..))
  have hrun := hrun.snoc (@Step.perform _ _ _ _ Env _
    ⟨1,.get "shop" orders.asStr,.ok ⟨some "e1",.ok [1]⟩⟩ _ server rfl
    (Serve.found _ _ ⟨[1],⟨"e1"⟩⟩ _ _ hstored (by simp) (by simp)))
  exact ⟨_,_,hrun,rfl,(s3_meets_contract hrun rfl eastern orders).2.1 id [1] rfl⟩

end S3Store

end Objsds
