import Objsds.Core.MapLinearizable
import Objsds.Foundation.Interpret
import Objsds.S3.Contract
import Objsds.System.Access

namespace Objsds

open Foundation

namespace S3

inductive Sys where
  | http (request : Request)
  | nowMillis
  | nowV7

abbrev SysReply : Sys → Type
  | .http request => Response request
  | .nowMillis => UInt64
  | .nowV7 => Uuid

def send {α : Type} (p : Http α) : Program SysReply α :=
  p.interpret (fun request => .request (Sys.http request))

abbrev Contents := String × String → Option Bytes

def Contents.objects (tag : Bytes → String) (w : Contents) : Server :=
  fun key => (w key).map (fun bytes => ⟨bytes,⟨tag bytes⟩⟩)

def Contents.etag (tag : Bytes → String) (w : Contents) (key : String × String) : Option String :=
  (w key).map tag

-- A 412 says that the condition is false and a 404 that there is no object. Any other status,
-- 409 among them, says nothing of the object.
def Justified (s : Server) : (q : Request) → Response q → Prop
  | .put bucket key condition _ _, .error error =>
      (error.status = some 412 → ¬ condition.Holds (s (bucket,key))) ∧
        (error.status = some 404 → s (bucket,key) = none)
  | _, _ => True

inductive Tagged (tag : Bytes → String) : Contents → Event SysReply → Contents → Prop
  | http {i : ℕ} {q : Request} {r : Response q} {w w' : Contents}
      (served : Serve (w.objects tag) q r (w'.objects tag))
      (justified : Justified (w.objects tag) q r) : Tagged tag w ⟨i,.http q,r⟩ w'
  | nowMillis {w : Contents} (i : ℕ) (now : UInt64) : Tagged tag w ⟨i,.nowMillis,now⟩ w
  | nowV7 {w : Contents} (i : ℕ) (id : Uuid) : Tagged tag w ⟨i,.nowV7,id⟩ w

theorem send_done {α : Type} {p : Http α} {h' : List (Sigma SysReply)} {a : α}
    (hf : (send p).Follows h' (.done a)) :
    ∃ h, p.Follows h (.done a) ∧ h' = h.map (fun x => ⟨.http x.1,x.2⟩) := by
  obtain ⟨h,hp,hc⟩ := Program.interpret_done hf
  refine ⟨h,hp,?_⟩
  clear hp hf
  induction hc with
  | nil => rfl
  | @cons q r h own h' how _ ih =>
      rcases Program.follows_perform.mp how with ⟨-,hq⟩ | ⟨r',rest,rfl,hrest⟩
      · simp at hq
      · obtain ⟨rfl,hr⟩ := Program.follows_done.mp hrest
        obtain rfl := Program.done.inj hr
        rw [ih]
        rfl

end S3

namespace S3Store

open S3

def serve (self : S3Store) : (q : Objsds.Request) → Http (q.Response StoreError)
  | .get location => self.get location
  | .create location bytes => CreateReply.ofResult <$> self.create location bytes
  | .replace location expected bytes =>
      ReplaceReply.ofResult <$> self.replace location expected bytes

def handle (self : S3Store) : (e : Effect) → Program SysReply (Reply StoreError e)
  | .store q => send (self.serve q)
  | .nowMillis => .request Sys.nowMillis
  | .nowV7 => .request Sys.nowV7

def perform {α : Type} (self : S3Store) (action : Action StoreError α) : Program SysReply α :=
  action.interpret self.handle

section Replace

variable {self : S3Store} {location : Location} {h : List (Sigma SysReply)}

theorem get_handled {o : Object}
    (hf : (self.handle (.store (.get location))).Follows h (.done (.ok (some o)))) :
    ∃ reply, h = [⟨.http (.get self.config.bucket location.asStr),reply⟩] ∧
      received reply = .ok (some o) := by
  obtain ⟨h',hg,rfl⟩ := send_done hf
  obtain ⟨reply,rfl,hr⟩ := get_done hg
  exact ⟨reply,rfl,hr.symm⟩

theorem ofResult_conflict {ε : Type} {r : Except (ReplaceError ε) Version}
    {observed : Option Version} (h : ReplaceReply.ofResult r = .conflict observed) :
    r = .error (.conflict observed) := by
  match r,h with
  | .error (.conflict found),h => rw [ReplaceReply.conflict.inj h]

theorem replace_handled {expected : Version} {bytes : Bytes} {observed : Option Version}
    (hf : (self.handle (.store (.replace location expected bytes))).Follows h
      (.done (.conflict observed))) :
    ∃ error reply found, error.status ≠ none ∧
      h = [⟨.http (self.put location (.ifMatch expected.asStr) bytes),.error error⟩,
        ⟨.http (.get self.config.bucket location.asStr),reply⟩] ∧
      received reply = .ok found ∧ found.map Object.version = observed := by
  obtain ⟨h',hg,rfl⟩ := send_done hf
  obtain ⟨r,hr,hconflict⟩ := Program.follows_map_done.mp hg
  have hw := replace_done hr
  rw [ofResult_conflict hconflict] at hw
  generalize hres : (Except.error (ReplaceError.conflict observed) :
    Except (ReplaceError StoreError) Version) = result at hw
  cases hw with
  | unsent error | failed error => simp at hres
  | accepted response =>
      obtain ⟨e,-,he⟩ := except_mapError_eq_error.mp hres.symm
      simp at he
  | inspected error reply status =>
      match hr : received reply with
      | .error source => simp [hr,replaceAnswer] at hres
      | .ok found =>
          refine ⟨error,reply,found,status,rfl,hr,?_⟩
          simpa [hr,replaceAnswer] using hres.symm

end Replace

section Runs

variable {β : Type} {tag : Bytes → String} {c c' : Config Contents SysReply β}
  {tr : Trace SysReply} {i : ℕ} {self : S3Store} {location : Location}

def key (self : S3Store) (location : Location) : String × String :=
  (self.config.bucket,location.asStr)

-- The contents when a call read the object, when its write of what it had read was refused, and
-- when it looked at the object again.
inductive Exchange (tag : Bytes → String) (self : S3Store) (location : Location)
    (expected : Version) (c : Config Contents SysReply β) (i : ℕ) :
    Trace SysReply → Config Contents SysReply β → Contents → Contents → Contents → Prop
  | mk {tr₁ tr₂ tr₃ tr₄ : Trace SysReply} {first put second : Event SysReply}
      {m₁ m₁' m₂ m₂' m₃ m₃' c' : Config Contents SysReply β} {bytes : Bytes} {error : ClientError}
      (calls : first.call = i ∧ put.call = i ∧ second.call = i)
      (get : first.effect = .http (.get self.config.bucket location.asStr))
      (refused : put.answer =
        ⟨.http (self.put location (.ifMatch expected.asStr) bytes),.error error⟩)
      (status : error.status ≠ none)
      (again : second.effect = .http (.get self.config.bucket location.asStr))
      (before : Run (Tagged tag) c tr₁ m₁) (read : Step (Tagged tag) m₁ first m₁')
      (reading : Run (Tagged tag) m₁' tr₂ m₂) (write : Step (Tagged tag) m₂ put m₂')
      (waiting : Run (Tagged tag) m₂' tr₃ m₃) (look : Step (Tagged tag) m₃ second m₃')
      (after : Run (Tagged tag) m₃' tr₄ c') :
      Exchange tag self location expected c i
        (tr₁ ++ first :: (tr₂ ++ put :: (tr₃ ++ second :: tr₄))) c' m₁.world m₂.world m₃.world

-- No write brings back an ETag the object had before, and none is refused while its condition
-- holds.
structure Steady (tag : Bytes → String) (key : String × String)
    (c : Config Contents SysReply β) (tr : Trace SysReply) : Prop where
  fresh : ∀ tr₀ tr₁ ev tr₂ m₀ m m', tr = tr₀ ++ (tr₁ ++ ev :: tr₂) → Run (Tagged tag) c tr₀ m₀ →
    Run (Tagged tag) m₀ tr₁ m → Step (Tagged tag) m ev m' →
    m.world.etag tag key ≠ m₀.world.etag tag key →
    ∀ etag, m₀.world.etag tag key = some etag → m'.world.etag tag key ≠ some etag
  heeded : ∀ tr₁ ev tr₂ m m' condition contentType body error,
    tr = tr₁ ++ ev :: tr₂ → Run (Tagged tag) c tr₁ m → Step (Tagged tag) m ev m' →
    ev.answer = ⟨.http (.put key.1 key.2 condition contentType body),.error error⟩ →
    error.status ≠ none → ¬ condition.Holds (m.world.objects tag key)

theorem etag_objects (w : Contents) (key : String × String) :
    w.etag tag key = (w.objects tag key).map (fun o => o.version.asStr) := by
  cases h : w key <;> simp [Contents.etag,Contents.objects,h]

theorem tagged_served {m m' : Config Contents SysReply β} {ev : Event SysReply} {q : S3.Request}
    {reply : Response q} (hs : Step (Tagged tag) m ev m') (ha : ev.answer = ⟨.http q,reply⟩) :
    Serve (m.world.objects tag) q reply (m'.world.objects tag) := by
  obtain ⟨j,e,r⟩ := ev
  obtain ⟨rfl,hr⟩ := Sigma.mk.inj ha
  obtain rfl := eq_of_heq hr
  cases hs.world with
  | http served => exact served

theorem exchange_of_conflict {expected : Version} {observed : Option Version} (access : Access)
    (hrun : Run (Tagged tag) c tr c')
    (hf : (self.perform access.program).Follows (Trace.of i tr)
      (.done (.conflict expected observed))) :
    ∃ read refused inspected,
      Exchange tag self access.location expected c i tr c' read refused inspected ∧
        read.etag tag (self.key access.location) = some expected.asStr ∧
        inspected.etag tag (self.key access.location) = observed.map Version.asStr := by
  obtain ⟨h,hp,hc⟩ := Program.interpret_done hf
  obtain ⟨h₀,o,b,hgot,rfl,rfl⟩ := access.lostRace hp
  obtain ⟨h₁,h₂,hof,hc₁,hc₂⟩ := hc.append_inv
  obtain ⟨before,own,after,rfl,hown⟩ := hc₁.mem hgot
  obtain ⟨reply,rfl,hreply⟩ := get_handled hown
  obtain ⟨error,reply',found,hstatus,rfl,hreply',hfound⟩ := replace_handled hc₂.singleton
  rw [List.append_assoc,List.append_assoc] at hof
  obtain ⟨tr₁,first,rest,rfl,hi₁,ha₁,-,hof⟩ := Trace.of_mid_inv hof
  obtain ⟨tr₂,put,rest,rfl,hi₂,ha₂,-,hof⟩ := Trace.of_mid_inv hof
  obtain ⟨tr₃,second,tr₄,rfl,hi₃,ha₃,-,-⟩ := Trace.of_mid_inv (h := []) hof
  obtain ⟨m₁,m₁',hm₁,hs₁,hrest⟩ := hrun.split
  obtain ⟨m₂,m₂',hm₂,hs₂,hrest⟩ := hrest.split
  obtain ⟨m₃,m₃',hm₃,hs₃,hlast⟩ := hrest.split
  refine ⟨_,_,_,.mk ⟨hi₁,hi₂,hi₃⟩ (congrArg Sigma.fst ha₁) ha₂ hstatus (congrArg Sigma.fst ha₃)
    hm₁ hs₁ hm₂ hs₂ hm₃ hs₃ hlast,?_,?_⟩
  · rw [etag_objects,key,received_current (tagged_served hs₁ ha₁) hreply]
    rfl
  · rw [etag_objects,key,received_current (tagged_served hs₃ ha₃) hreply',← hfound,Option.map_map]
    rfl

theorem Steady.away {key : String × String} {etag : String} (hst : Steady tag key c tr)
    {tr₀ tr₁ tr₂ tr₃ : Trace SysReply} {m₀ m n : Config Contents SysReply β}
    (htr : tr = tr₀ ++ (tr₁ ++ (tr₂ ++ tr₃))) (h₀ : Run (Tagged tag) c tr₀ m₀)
    (he : m₀.world.etag tag key = some etag) (h₁ : Run (Tagged tag) m₀ tr₁ m)
    (hm : m.world.etag tag key ≠ some etag) (h₂ : Run (Tagged tag) m tr₂ n) :
    n.world.etag tag key ≠ some etag := by
  induction tr₂ using List.reverseRecOn generalizing n tr₃ with
  | nil => rwa [Run.nil_iff.mp h₂]
  | append_singleton tr₂ ev ih =>
      obtain ⟨n',hn',hs⟩ := Run.snoc_iff.mp h₂
      have hleft := ih (by simpa using htr) hn'
      refine hst.fresh tr₀ (tr₁ ++ tr₂) ev tr₃ m₀ n' n (by simpa using htr) h₀
        (Run.append_iff.mpr ⟨m,h₁,hn'⟩) hs ?_ etag he
      rwa [he]

theorem Exchange.moved {expected : Version} {read refused inspected : Contents}
    (hx : Exchange tag self location expected c i tr c' read refused inspected)
    (he : read.etag tag (self.key location) = some expected.asStr)
    (hst : Steady tag (self.key location) c tr) :
    inspected.etag tag (self.key location) ≠ some expected.asStr := by
  cases hx with
  | @mk tr₁ tr₂ tr₃ tr₄ first put second m₁ m₁' m₂ m₂' m₃ m₃' _ bytes error _ get refused status
      again before read reading write waiting look after =>
      have hpath := Run.cons read reading
      have hnot := hst.heeded (tr₁ ++ first :: tr₂) put (tr₃ ++ second :: tr₄) m₂ m₂' _ _ _ _
        (by simp) (Run.append_iff.mpr ⟨m₁,before,hpath⟩) write refused status
      have htr : tr₁ ++ first :: (tr₂ ++ put :: (tr₃ ++ second :: tr₄)) =
          tr₁ ++ (first :: tr₂ ++ (put :: tr₃ ++ second :: tr₄)) := by simp
      refine hst.away htr before he hpath ?_ (Run.cons write waiting)
      intro hback
      rw [etag_objects,Option.map_eq_some_iff] at hback
      obtain ⟨o,ho,hv⟩ := hback
      exact hnot ⟨o,ho,.inr hv⟩

def mayWrite : Sigma SysReply → Bool
  | ⟨.http (.get _ _),_⟩ => false
  | ⟨.http (.put _ _ _ _ _),.error error⟩ => error.status.isNone
  | ⟨.http _,_⟩ => true
  | ⟨.nowMillis,_⟩ | ⟨.nowV7,_⟩ => false

theorem tagged_quiet {w w' : Contents} {ev : Event SysReply} (h : Tagged tag w ev w')
    (hq : mayWrite ev.answer = false) : w'.objects tag = w.objects tag := by
  cases h with
  | nowMillis | nowV7 => rfl
  | http served _ =>
      generalize w'.objects tag = s' at served
      cases served with
      | found | missing | unread | refused | undeleted => rfl
      | stored | deleted => simp [mayWrite,Event.answer] at hq
      | unanswered _ _ _ _ _ _ _ status => simp [mayWrite,Event.answer,status] at hq

theorem quiet_run {m m' : Config Contents SysReply β} (h : Run (Tagged tag) m tr m')
    (hq : ∀ ev ∈ tr, mayWrite ev.answer = false) : m'.world.objects tag = m.world.objects tag := by
  induction h with
  | nil => rfl
  | snoc _ hs ih =>
      rw [tagged_quiet hs.world (hq _ (by simp)),ih (fun ev hev => hq ev (by simp [hev]))]

-- A run is steady when one write at most takes effect in it and whatever is refused is refused
-- for its condition.
theorem steady_of_one_write {key : String × String}
    (hone : tr.countP (fun ev => mayWrite ev.answer) ≤ 1)
    (hrefused : ∀ ev ∈ tr, ∀ condition contentType body error,
      ev.answer = ⟨.http (.put key.1 key.2 condition contentType body),.error error⟩ →
      error.status ≠ none → error.status = some 412) : Steady tag key c tr := by
  constructor
  · rintro tr₀ tr₁ ev tr₂ m₀ m m' rfl - h₁ hs hne etag he
    have hwrote : ∃ ev ∈ tr₁, mayWrite ev.answer = true := by
      by_contra hnone
      push Not at hnone
      refine hne ?_
      rw [etag_objects,etag_objects,quiet_run h₁ (fun ev hev => by simpa using hnone ev hev)]
    have hquiet : mayWrite ev.answer = false := by
      have hpos := List.countP_pos_iff.mpr hwrote
      simp only [List.countP_append,List.countP_cons] at hone
      by_contra hw
      rw [if_pos (by simpa using hw)] at hone
      omega
    rw [etag_objects,tagged_quiet hs.world hquiet,← etag_objects,← he]
    exact hne
  · rintro tr₁ ev tr₂ m m' condition contentType body error rfl - hs ha hstatus
    have hcode := hrefused ev (by simp) condition contentType body error ha hstatus
    obtain ⟨j,e,r⟩ := ev
    obtain ⟨rfl,hr⟩ := Sigma.mk.inj ha
    obtain rfl := eq_of_heq hr
    cases hs.world with
    | http _ justified => exact justified.1 hcode

theorem conflict_names_another_iff {b : β} {f : Ending → β} (hrun : Run (Tagged tag) c tr c')
    (access : Access) (hc : c.calls i = f <$> self.perform access.program)
    (hdone : c'.calls i = .done b) :
    ∃ ending, f ending = b ∧ ∀ expected observed, ending = .conflict expected (some observed) →
      (∃ read refused inspected,
        Exchange tag self access.location expected c i tr c' read refused inspected ∧
          (observed ≠ expected ↔ inspected.etag tag (self.key access.location) ≠
            read.etag tag (self.key access.location))) ∧
      (Steady tag (self.key access.location) c tr → observed ≠ expected) := by
  have hf := hrun.follows i
  rw [hc,hdone] at hf
  obtain ⟨ending,hending,hb⟩ := Program.follows_map_done.mp hf
  refine ⟨ending,hb,?_⟩
  rintro expected observed rfl
  obtain ⟨read,refused,inspected,hx,hread,hinspected⟩ := exchange_of_conflict access hrun hending
  have hiff : observed ≠ expected ↔ inspected.etag tag (self.key access.location) ≠
      read.etag tag (self.key access.location) := by
    rw [hread,hinspected,Option.map_some,not_iff_not,Option.some.injEq]
    exact ⟨congrArg Version.asStr,fun h => by rw [← Version.mk.injEq] at h; exact h⟩
  refine ⟨⟨read,refused,inspected,hx,hiff⟩,fun hst => hiff.mpr ?_⟩
  rw [hread]
  exact hx.moved hread hst

end Runs

section Restored

def hexTag (bytes : Bytes) : String := String.ofList (hexText bytes)

theorem hexTag_injective : Function.Injective hexTag := by
  intro x y h
  exact hexText_injective (by simpa [hexTag] using congrArg String.toList h)

def holding (bytes : Bytes) : Contents :=
  Function.update (fun _ => none) (eastern.key orders) (some bytes)

def buyers : ℕ → Map.Op String
  | 0 => .insert "a" "1"
  | 1 => .insert "k" "1"
  | _ => .remove "k"

def market (bytes : Bytes) : Config Contents SysReply Ending :=
  ⟨holding bytes,fun i => eastern.perform (Access.map Map.orders (buyers i)).program⟩

def readEvent (i : ℕ) (b : Bytes) : Event SysReply :=
  ⟨i,.http (.get "shop" orders.asStr),.ok ⟨some (hexTag b),.ok b⟩⟩

def putEvent (i : ℕ) (b b' : Bytes) (reply : Except ClientError PutResponse) : Event SysReply :=
  ⟨i,.http (eastern.put orders (.ifMatch (hexTag b)) b'),reply⟩

variable {b b' b₂ : Bytes} {i : ℕ}

theorem objects_holding : (holding b).objects hexTag (eastern.key orders) =
    some ⟨b,⟨hexTag b⟩⟩ := by
  simp [Contents.objects,holding]

theorem readEvent_tagged : Tagged hexTag (holding b) (readEvent i b) (holding b) :=
  .http (.found _ _ ⟨b,⟨hexTag b⟩⟩ _ _ objects_holding (by simp) (by simp)) trivial

theorem putEvent_tagged :
    Tagged hexTag (holding b) (putEvent i b b' (.ok ⟨some (hexTag b')⟩)) (holding b') := by
  have hobjects : (holding b').objects hexTag =
      Function.update ((holding b).objects hexTag) (eastern.key orders)
        (some ⟨b',⟨hexTag b'⟩⟩) := by
    funext key
    by_cases hk : key = eastern.key orders <;> simp [Contents.objects,holding,hk]
  refine .http ?_ trivial
  rw [hobjects]
  exact .stored _ _ _ _ _ _ _ ⟨_,objects_holding,.inr rfl⟩ (by simp)

theorem staleEvent_tagged (hne : b ≠ b₂) :
    Tagged hexTag (holding b₂) (putEvent i b b' (.error ⟨some 412,""⟩)) (holding b₂) := by
  refine .http (.refused ..) ⟨fun _ => ?_,by simp⟩
  rintro ⟨o,ho,hetag⟩
  obtain rfl := Option.some.inj (objects_holding.symm.trans ho)
  have hstar : hexTag b ≠ "*" := by
    intro h
    have hlen := congrArg (fun t => t.toList.length) h
    simp only [hexTag,String.toList_ofList,hexText_length] at hlen
    have : "*".toList.length = 1 := rfl
    omega
  rcases hetag with hetag | hetag
  · exact hstar hetag
  · exact hne (hexTag_injective hetag).symm

theorem get_carried : (eastern.handle (.store (.get orders))).Follows [(readEvent i b).answer]
    (.done (.ok (some ⟨b,⟨hexTag b⟩⟩))) :=
  .step (.refl _)

theorem put_carried :
    (eastern.handle (.store (.replace orders ⟨hexTag b⟩ b'))).Follows
      [(putEvent i b b' (.ok ⟨some (hexTag b')⟩)).answer] (.done (.replaced ⟨hexTag b'⟩)) :=
  .step (.refl _)

theorem stale_carried :
    (eastern.handle (.store (.replace orders ⟨hexTag b⟩ b'))).Follows
      [(putEvent i b b' (.error ⟨some 412,""⟩)).answer,(readEvent i b₂).answer]
      (.done (.conflict (some ⟨hexTag b₂⟩))) :=
  .step (.step (.refl _))

theorem buyer_follows {op : Map.Op String} {d d' : OwnedMapDocument String}
    {plan : OwnedMapDocument String → Plan _ (Error StoreError) (Map.Outcome String)}
    {reply : Version → Map.Outcome String} {r : ReplaceReply StoreError}
    {h : List (Sigma SysReply)} (hop : Map.procedure op = .transact plan)
    (hd : Map.orders.decode (ε := StoreError) b = .ok d) (hp : plan d = .commit d' reply)
    (hb : Map.orders.encode (ε := StoreError) d' = .ok b')
    (hr : (eastern.handle (.store (.replace orders ⟨hexTag b⟩ b'))).Follows h (.done r)) :
    (eastern.perform (Access.map Map.orders op).program).Follows ((readEvent i b).answer :: h)
      (.done (ending Error.raced (Map.orders.medium.settle ⟨hexTag b⟩ reply r))) := by
  have hcommits := transact_commits (m := Map.orders.medium) (o := ⟨b,⟨hexTag b⟩⟩) hd hp hb r
  have hprogram : (Access.map Map.orders op).program.Follows
      [⟨.store (.get orders),.ok (some ⟨b,⟨hexTag b⟩⟩)⟩,
        ⟨.store (.replace orders ⟨hexTag b⟩ b'),r⟩]
      (.done (ending Error.raced (Map.orders.medium.settle ⟨hexTag b⟩ reply r))) := by
    rw [Access.program,Map.perform_eq,hop]
    exact Program.follows_map_done.mpr ⟨_,hcommits,rfl⟩
  have hcarried : Program.Carried eastern.handle
      [⟨.store (.get orders),.ok (some ⟨b,⟨hexTag b⟩⟩)⟩,
        ⟨.store (.replace orders ⟨hexTag b⟩ b'),r⟩]
      ([(readEvent i b).answer] ++ (h ++ [])) := .cons get_carried (.cons hr .nil)
  rw [List.append_nil] at hcarried
  exact Program.interpret_follows hprogram hcarried

def blank : OwnedMapDocument String := ⟨⟨Core.FORMAT_VERSION,"map","v1"⟩,.empty⟩

def only (key : String) : OwnedMapDocument String :=
  ⟨blank.toHeader,blank.entries.insert key "1"⟩

theorem market_documents :
    ∃ b b₁ b₂, b ≠ b₁ ∧ Map.orders.encode (ε := StoreError) blank = .ok b ∧
      Map.orders.decode (ε := StoreError) b = .ok blank ∧
      Map.orders.encode (ε := StoreError) (only "k") = .ok b₁ ∧
      Map.orders.decode (ε := StoreError) b₁ = .ok (only "k") ∧
      Map.orders.encode (ε := StoreError) (only "a") = .ok b₂ := by
  have hrt : Map.orders.codec.RoundTrips 2 := textCodec_roundTrips (by decide)
  obtain ⟨b,hb,hd⟩ := Map.encode_roundTrip (ε := StoreError) hrt (d := blank) rfl
  obtain ⟨b₁,hb₁,hd₁⟩ := Map.encode_roundTrip (ε := StoreError) hrt (d := only "k") rfl
  obtain ⟨b₂,hb₂,-⟩ := Map.encode_roundTrip (ε := StoreError) hrt (d := only "a") rfl
  refine ⟨b,b₁,b₂,?_,hb,hd,hb₁,hd₁,hb₂⟩
  rintro rfl
  have hentries := congrArg (fun d => d.entries.get? "k") (Except.ok.inj (hd.symm.trans hd₁))
  exact absurd hentries (by decide)

theorem conflict_names_the_rival :
    ∃ (b b₁ : Bytes) (tr : Trace SysReply) (c : Config Contents SysReply Ending),
      b ≠ b₁ ∧ Run (Tagged hexTag) (market b) tr c ∧
        Steady hexTag (eastern.key orders) (market b) tr ∧
        c.calls 0 = .done (.conflict ⟨hexTag b⟩ (some ⟨hexTag b₁⟩)) ∧
        (⟨hexTag b₁⟩ : Version) ≠ ⟨hexTag b⟩ ∧ ∃ read refused inspected,
          Exchange hexTag eastern orders ⟨hexTag b⟩ (market b) 0 tr c read refused inspected ∧
            inspected.etag hexTag (eastern.key orders) ≠ read.etag hexTag (eastern.key orders) := by
  obtain ⟨b,b₁,b₂,hne,-,hd,hb₁,-,hb₂⟩ := market_documents
  let tr : Trace SysReply := [readEvent 0 b,readEvent 1 b,
    putEvent 1 b b₁ (.ok ⟨some (hexTag b₁)⟩),putEvent 0 b b₂ (.error ⟨some 412,""⟩),readEvent 0 b₁]
  have hworld : ∀ n (h : n < tr.length),
      Tagged hexTag (holding ([b,b,b].getD n b₁)) (tr.get ⟨n,h⟩)
        (holding ([b,b,b].getD (n + 1) b₁)) := by
    intro n h
    match n,h with
    | 0,_ | 1,_ | 4,_ => exact readEvent_tagged
    | 2,_ => exact putEvent_tagged
    | 3,_ => exact staleEvent_tagged hne
  let ends : ℕ → Program SysReply Ending
    | 0 => .done (.conflict ⟨hexTag b⟩ (some ⟨hexTag b₁⟩))
    | 1 => .done .succeeded
    | i + 2 => (market b).calls (i + 2)
  have hcalls : ∀ i, ((market b).calls i).Follows (Trace.of i tr) (ends i) := by
    intro i
    match i with
    | 0 => exact buyer_follows rfl hd rfl hb₂ stale_carried
    | 1 => exact buyer_follows rfl hd rfl hb₁ put_carried
    | i + 2 =>
        have hnone : Trace.of (i + 2) tr = [] := by
          simp [Trace.of,tr,readEvent,putEvent]
        rw [hnone]
        exact .refl _
  have hrun : Run (Tagged hexTag) (market b) tr _ := Run.of_follows hworld rfl hcalls
  obtain ⟨ending,hending,h⟩ := conflict_names_another_iff (i := 0) (f := id) hrun
    (Access.map Map.orders (.insert "a" "1")) (id_map _).symm rfl
  obtain ⟨⟨read,refused,inspected,hx,hiff⟩,hanother⟩ := h _ _ hending
  have hsteady : Steady hexTag (eastern.key orders) (market b) tr := by
    refine steady_of_one_write (Nat.le_refl 1) (fun ev hev condition contentType body error ha => ?_)
    simp only [tr,List.mem_cons,List.not_mem_nil,or_false] at hev
    rcases hev with rfl | rfl | rfl | rfl | rfl
    · simp [readEvent,Event.answer] at ha
    · simp [readEvent,Event.answer] at ha
    · simp [putEvent,Event.answer,S3Store.put] at ha
    · obtain ⟨-,rfl⟩ : _ ∧ (⟨some 412,""⟩ : ClientError) = error := by
        simpa [putEvent,Event.answer,S3Store.put] using ha
      exact fun _ => rfl
    · simp [readEvent,Event.answer] at ha
  exact ⟨b,b₁,tr,_,hne,hrun,hsteady,rfl,hanother hsteady,read,refused,inspected,hx,
    hiff.mp (hanother hsteady)⟩

-- A write is refused because of another client's insert, which a third client takes back before
-- the refused one looks again.
theorem conflict_names_its_own_version :
    ∃ (b : Bytes) (tr : Trace SysReply) (c : Config Contents SysReply Ending),
      Run (Tagged hexTag) (market b) tr c ∧
        (market b).calls 0 = eastern.perform (Access.map Map.orders (.insert "a" "1")).program ∧
        c.calls 0 = .done (.conflict ⟨hexTag b⟩ (some ⟨hexTag b⟩)) := by
  obtain ⟨b,b₁,b₂,hne,hb,hd,hb₁,hd₁,hb₂⟩ := market_documents
  let tr : Trace SysReply := [readEvent 0 b,readEvent 1 b,
    putEvent 1 b b₁ (.ok ⟨some (hexTag b₁)⟩),readEvent 2 b₁,
    putEvent 0 b b₂ (.error ⟨some 412,""⟩),putEvent 2 b₁ b (.ok ⟨some (hexTag b)⟩),readEvent 0 b]
  have hworld : ∀ n (h : n < tr.length),
      Tagged hexTag (holding ([b,b,b,b₁,b₁,b₁].getD n b)) (tr.get ⟨n,h⟩)
        (holding ([b,b,b,b₁,b₁,b₁].getD (n + 1) b)) := by
    intro n h
    match n,h with
    | 0,_ | 1,_ | 3,_ | 6,_ => exact readEvent_tagged
    | 2,_ | 5,_ => exact putEvent_tagged
    | 4,_ => exact staleEvent_tagged hne
  let ends : ℕ → Program SysReply Ending
    | 0 => .done (.conflict ⟨hexTag b⟩ (some ⟨hexTag b⟩))
    | 1 => .done .succeeded
    | 2 => .done .succeeded
    | i + 3 => (market b).calls (i + 3)
  have hcalls : ∀ i, ((market b).calls i).Follows (Trace.of i tr) (ends i) := by
    intro i
    match i with
    | 0 => exact buyer_follows rfl hd rfl hb₂ stale_carried
    | 1 => exact buyer_follows rfl hd rfl hb₁ put_carried
    | 2 => exact buyer_follows rfl hd₁ rfl hb put_carried
    | i + 3 =>
        have hnone : Trace.of (i + 3) tr = [] := by
          simp [Trace.of,tr,readEvent,putEvent]
        rw [hnone]
        exact .refl _
  exact ⟨b,tr,_,Run.of_follows hworld rfl hcalls,rfl,rfl⟩

end Restored

end S3Store

end Objsds
