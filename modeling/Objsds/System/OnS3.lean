import Objsds.S3.Refinement
import Objsds.System.Mirrored

namespace Objsds

open Foundation

namespace S3Store

open S3

section Structures

variable {D Err α : Type} {ok : Version → Prop}

theorem plan_heedful (m : Medium D Err StoreError) {x : Version} (hx : ok x)
    (plan : Plan D Err α) : Heedful ok (plan.program m x) := by
  induction plan with
  | respond result => trivial
  | generate next ih => exact ih
  | commit document reply =>
      rw [Plan.program]
      cases m.encode document with
      | error e => trivial
      | ok b => exact ⟨hx,fun _ => trivial⟩

theorem procedure_heedful (m : Medium D Err StoreError) (p : Procedure D Err α) :
    Heedful ok (p.program m) := by
  induction p with
  | respond result => trivial
  | clock next ih => exact ih
  | transact plan =>
      intro r hr
      simp only [Medium.resume]
      cases hs : m.snapshot r with
      | error e => trivial
      | ok found =>
          obtain ⟨o,ho,hv⟩ : ∃ o, r = .ok (some o) ∧ found.1 = o.version := by
            obtain source | _ | o := r
            · cases hs
            · cases hs
            · obtain ⟨doc,-,rfl⟩ := except_map_eq_ok.mp hs
              exact ⟨o,rfl,rfl⟩
          exact plan_heedful m (hv ▸ hr o ho) (plan found.2)

end Structures

section Runs

variable {α : Type} {tag : Bytes → String} {self : S3Store} {A : ℕ → Action StoreError α}
  {w : Contents} {tr : Trace SysReply} {c : Config Contents SysReply α} {l : Location}

theorem held_tagged {T : Trace (Reply StoreError)}
    {m : Config (self.store tag).State (Reply StoreError) α}
    (h : Run (self.store tag).Env ⟨w,A⟩ T m) {o : Object}
    (ho : o ∈ held (self.objects tag w l) l T) : o.version = ⟨tag o.bytes⟩ := by
  induction h with
  | nil =>
      have ho : self.objects tag w l = some o := by simpa [held,stored] using ho
      exact objects_version ho
  | @snoc T ev n m _ hs ih =>
      rw [held_snoc] at ho
      rcases List.mem_append.mp ho with ho | ho
      · exact ih ho
      · have hw : self.objects tag m.world l = some o := by
          have hnext := hs.world.objects_eq l
          rw [Option.mem_toList.mp ho] at hnext
          exact hnext
        exact objects_version hw

theorem mirrored (ht : Tags tag) (hc : self.client.Sends tag) (ho : ∀ i, Oblivious (A i))
    (hh : ∀ i, Heedful (fun v => ∃ b, v = ⟨tag b⟩) (A i)) (l : Location)
    (h : Run (Tagged tag) ⟨w,fun i => self.perform (A i)⟩ tr c) :
    ∃ T m, Mirrored (self.store tag) l A tr c w T m ∧ (issued T).Sublist (tr.filterMap drawing) ∧
      m.world = c.world := by
  obtain ⟨marks,m,hmarks,hrun,hworld,hdone⟩ := pool_refines ht hc ho hh h
  refine ⟨marks.reduceOption,m,⟨hrun,?_,⟨marks,hmarks.own,rfl⟩,hdone⟩,
    issued_sublist hmarks.shown,hworld.symm⟩
  intro x hx y hy hv
  rw [held_tagged hrun hx,held_tagged hrun hy] at hv
  exact ht.distinct (Version.mk.inj hv)

end Runs

section Lost

variable {D Err α : Type} {m : Medium D Err StoreError} {i : ℕ} {b b' : Bytes} {d d' : D}
  {h : List (Sigma SysReply)} {w : Contents} {a : Except Err α}

theorem hexTag_tags : Tags hexTag := by
  refine ⟨hexTag_injective,fun b h => ?_⟩
  have hlen := congrArg (fun t => t.toList.length) h
  simp only [hexTag,String.toList_ofList,hexText_length] at hlen
  have : "*".toList.length = 1 := rfl
  omega

theorem eastern_sends : eastern.client.Sends hexTag := ⟨rfl,fun _ => rfl,rfl⟩

def shelf (l : Location) (b : Bytes) : Contents :=
  Function.update (fun _ => none) (eastern.key l) (some b)

theorem shelf_objects (l : Location) (b : Bytes) :
    eastern.objects hexTag (shelf l b) l = some ⟨b,⟨hexTag b⟩⟩ := by
  simp [objects,Contents.objects,shelf]

def timeout : ClientError := ⟨none,"timed out"⟩

theorem solo_reads {p : Procedure D Err α} {plan : D → Plan D Err α} (hp : p = .transact plan)
    (hd : m.decode b = .ok d)
    (hs : Solo (Tagged hexTag) i (shelf m.location b)
      (eastern.perform ((plan d).program m ⟨hexTag b⟩)) h w a) :
    Solo (Tagged hexTag) i (shelf m.location b) (eastern.perform (p.program m))
      (⟨.http (.get "shop" m.location.asStr),.ok ⟨some (hexTag b),.ok b⟩⟩ :: h) w a := by
  subst hp
  refine .perform (.http (.found _ _ ⟨b,⟨hexTag b⟩⟩ _ _ (shelf_objects m.location b) (by simp)
    (by simp)) trivial) ?_
  have hresume : m.resume plan (.ok (some ⟨b,⟨hexTag b⟩⟩)) = (plan d).program m ⟨hexTag b⟩ :=
    Medium.resume_ok (o := ⟨b,⟨hexTag b⟩⟩) hd plan
  rw [← hresume] at hs
  exact hs

theorem solo_draws {next : Uuid → Plan D Err α} {x : Version} {w₀ : Contents} (id : Uuid)
    (hs : Solo (Tagged hexTag) i w₀ (eastern.perform ((next id).program m x)) h w a) :
    Solo (Tagged hexTag) i w₀ (eastern.perform ((Plan.generate next).program m x))
      (⟨.nowV7,id⟩ :: h) w a :=
  .perform (.nowV7 i id) hs

theorem solo_loses {reply : Version → α} (hb : m.encode d' = .ok b') :
    Solo (Tagged hexTag) i (shelf m.location b)
      (eastern.perform ((Plan.commit d' reply).program m ⟨hexTag b⟩))
      [⟨.http (eastern.put m.location (.ifMatch (hexTag b)) b'),.error timeout⟩]
      (shelf m.location b') (.error (m.storeError (.transport timeout))) := by
  have hput : (shelf m.location b').objects hexTag =
      Function.update ((shelf m.location b).objects hexTag) (eastern.key m.location)
        (some ⟨b',⟨hexTag b'⟩⟩) := by
    funext key
    by_cases hk : key = eastern.key m.location <;> simp [Contents.objects,shelf,hk]
  simp only [Plan.program,hb]
  refine .perform (.http ?_ ⟨by simp [timeout],by simp [timeout]⟩) .done
  rw [hput]
  exact .unanswered _ _ _ _ _ _ _ rfl ⟨_,shelf_objects m.location b,.inr rfl⟩

end Lost

end S3Store

open S3

namespace Queue

variable {V : Type} {tag : Bytes → String} {s3 : S3Store} {w : Contents} {queue : Queue V}
  {ops : ℕ → Op V} {tr : Trace SysReply}
  {c : Config Contents SysReply (Except (Error StoreError) (Outcome V))}

theorem queue_kept_on_s3 {o₀ : Object} (hrt : queue.codec.RoundTrips 3) (ht : Tags tag)
    (hc : s3.client.Sends tag) (hstart : s3.objects tag w queue.location = some o₀)
    (hempty : queue.emptyBytes (ε := StoreError) = .ok o₀.bytes)
    (hr : Run (Tagged tag) ⟨w,fun i => s3.perform (queue.perform (ops i))⟩ tr c)
    (hids : (tr.filterMap drawing).Nodup) :
    ∃ o doc, s3.objects tag c.world queue.location = some o ∧
      queue.decode (ε := StoreError) o.bytes = .ok doc ∧ Kept ops tr c doc.messages := by
  have hh : ∀ i, S3Store.Heedful (fun v => ∃ b, v = ⟨tag b⟩) (queue.perform (ops i)) := fun i => by
    rw [perform_eq]
    exact S3Store.procedure_heedful queue.medium _
  obtain ⟨T,m,hm,hissued,hworld⟩ := S3Store.mirrored ht hc (fun i => perform_oblivious (ops i)) hh
    queue.location hr
  rw [← hworld]
  exact mirrored_kept hrt hstart hempty hm (hissued.nodup hids)

-- The message is in the queue, though its publisher is told of a failure.
theorem lost_publish_kept : ∃ (w : Contents) (tr : Trace SysReply)
    (c : Config Contents SysReply (Except (Error StoreError) (Outcome String))) (o : Object)
    (doc : Document String) (source : StoreError),
    Run (Tagged S3Store.hexTag) ⟨w,fun _ => S3Store.eastern.perform
      (jobs.perform (.publish "a"))⟩ tr c ∧ c.calls 0 = .done (.error (.store source)) ∧
    S3Store.eastern.objects S3Store.hexTag c.world jobs.location = some o ∧
    jobs.decode (ε := StoreError) o.bytes = .ok doc ∧ Kept (fun _ => .publish "a") tr c doc.messages := by
  have hrt : jobs.codec.RoundTrips 3 := textCodec_roundTrips (by decide)
  let blank : Document String := ⟨⟨FORMAT_VERSION,KIND,"v1"⟩,[]⟩
  obtain ⟨b,hb,hd⟩ : ∃ b, jobs.encode (ε := StoreError) blank = .ok b ∧
      jobs.decode (ε := StoreError) b = .ok blank := encode_roundTrip hrt rfl .nil
  obtain ⟨b',hb',-⟩ : ∃ b', jobs.encode (ε := StoreError) (insertMessage blank ⟨0,"a",0,none⟩) = .ok b' ∧
      _ := encode_roundTrip hrt rfl (List.pairwise_singleton ..)
  have hsolo : Solo (Tagged S3Store.hexTag) 0 (S3Store.shelf jobs.location b)
      (S3Store.eastern.perform ((procedure (.publish "a")).program jobs.medium)) _ _ _ :=
    S3Store.solo_reads (m := jobs.medium) rfl hd (S3Store.solo_draws 0 (S3Store.solo_loses hb'))
  rw [← perform_eq] at hsolo
  obtain ⟨c,hr,-,ha,-⟩ := hsolo.run (c := ⟨S3Store.shelf jobs.location b,
    fun _ => S3Store.eastern.perform (jobs.perform (.publish "a"))⟩) rfl rfl
  obtain ⟨o,doc,ho,hdec,hkept⟩ := queue_kept_on_s3 hrt S3Store.hexTag_tags S3Store.eastern_sends
    (S3Store.shelf_objects jobs.location b) hb hr (List.nodup_singleton 0)
  exact ⟨_,_,c,o,doc,_,hr,ha,ho,hdec,hkept⟩

end Queue

namespace Log

variable {V : Type} {tag : Bytes → String} {s3 : S3Store} {w : Contents} {log : Log V}
  {ops : ℕ → Op V} {tr : Trace SysReply}
  {c : Config Contents SysReply (Except (Error StoreError) (Outcome V))}

theorem log_kept_on_s3 {o₀ : Object} (hrt : log.codec.RoundTrips 3) (ht : Tags tag)
    (hc : s3.client.Sends tag) (hstart : s3.objects tag w log.location = some o₀)
    (hempty : log.emptyBytes (ε := StoreError) = .ok o₀.bytes)
    (hr : Run (Tagged tag) ⟨w,fun i => s3.perform (log.perform (ops i))⟩ tr c)
    (hids : (tr.filterMap drawing).Nodup) :
    ∃ o doc, s3.objects tag c.world log.location = some o ∧
      log.decode (ε := StoreError) o.bytes = .ok doc ∧ Kept ops tr c doc.records := by
  have hh : ∀ i, S3Store.Heedful (fun v => ∃ b, v = ⟨tag b⟩) (log.perform (ops i)) := fun i => by
    rw [perform_eq]
    exact S3Store.procedure_heedful log.medium _
  obtain ⟨T,m,hm,hissued,hworld⟩ := S3Store.mirrored ht hc (fun i => perform_oblivious (ops i)) hh
    log.location hr
  rw [← hworld]
  exact mirrored_kept hrt hstart hempty hm (hissued.nodup hids)

theorem lost_append_kept : ∃ (w : Contents) (tr : Trace SysReply)
    (c : Config Contents SysReply (Except (Error StoreError) (Outcome String))) (o : Object)
    (doc : LogDocument String) (source : StoreError),
    Run (Tagged S3Store.hexTag) ⟨w,fun _ => S3Store.eastern.perform
      (audit.perform (.append "a"))⟩ tr c ∧ c.calls 0 = .done (.error (.store source)) ∧
    S3Store.eastern.objects S3Store.hexTag c.world audit.location = some o ∧
    audit.decode (ε := StoreError) o.bytes = .ok doc ∧ Kept (fun _ => .append "a") tr c doc.records := by
  have hrt : audit.codec.RoundTrips 3 := textCodec_roundTrips (by decide)
  let blank : LogDocument String := ⟨⟨Core.FORMAT_VERSION,"log","v1"⟩,[]⟩
  obtain ⟨b,hb,hd⟩ : ∃ b, audit.encode (ε := StoreError) blank = .ok b ∧
      audit.decode (ε := StoreError) b = .ok blank := encode_roundTrip hrt rfl .nil
  obtain ⟨b',hb',-⟩ : ∃ b', audit.encode (ε := StoreError) (insertRecord blank ⟨0,"a"⟩) = .ok b' ∧
      _ := encode_roundTrip hrt rfl (List.pairwise_singleton ..)
  have hsolo : Solo (Tagged S3Store.hexTag) 0 (S3Store.shelf audit.location b)
      (S3Store.eastern.perform ((procedure (.append "a")).program audit.medium)) _ _ _ :=
    S3Store.solo_reads (m := audit.medium) rfl hd (S3Store.solo_draws 0 (S3Store.solo_loses hb'))
  rw [← perform_eq] at hsolo
  obtain ⟨c,hr,-,ha,-⟩ := hsolo.run (c := ⟨S3Store.shelf audit.location b,
    fun _ => S3Store.eastern.perform (audit.perform (.append "a"))⟩) rfl rfl
  obtain ⟨o,doc,ho,hdec,hkept⟩ := log_kept_on_s3 hrt S3Store.hexTag_tags S3Store.eastern_sends
    (S3Store.shelf_objects audit.location b) hb hr (List.nodup_singleton 0)
  exact ⟨_,_,c,o,doc,_,hr,ha,ho,hdec,hkept⟩

end Log

namespace Map

variable {V : Type} {tag : Bytes → String} {s3 : S3Store} {w : Contents} {map : Map V}
  {ops : ℕ → Op V} {tr : Trace SysReply}
  {c : Config Contents SysReply (Except (Error StoreError) (Outcome V))}

theorem map_linearizable_on_s3 {o₀ : Object} {d₀ : OwnedMapDocument V}
    (hrt : map.codec.RoundTrips 2) (ht : Tags tag) (hc : s3.client.Sends tag)
    (hstart : s3.objects tag w map.location = some o₀)
    (hread : map.decode (ε := StoreError) o₀.bytes = .ok d₀)
    (hr : Run (Tagged tag) ⟨w,fun i => s3.perform (map.perform (ops i))⟩ tr c) :
    ∃ out points o doc, Explained d₀.entries ops tr c out points ∧
      s3.objects tag c.world map.location = some o ∧
      map.decode (ε := StoreError) o.bytes = .ok doc ∧
      doc.entries = (replay spec d₀.entries (points.map (fun p => ops p.2))).1 := by
  have hh : ∀ i, S3Store.Heedful (fun v => ∃ b, v = ⟨tag b⟩) (map.perform (ops i)) := fun i => by
    rw [perform_eq]
    exact S3Store.procedure_heedful map.medium _
  obtain ⟨T,m,hm,-,hworld⟩ := S3Store.mirrored ht hc (fun i => perform_oblivious (ops i)) hh
    map.location hr
  rw [← hworld]
  exact mirrored_explained hrt hstart hread hm

-- The one insert fails as far as its caller can tell.
theorem lost_insert_explained : ∃ (w : Contents) (tr : Trace SysReply)
    (c : Config Contents SysReply (Except (Error StoreError) (Outcome String)))
    (out : ℕ → Option (Observation String)) (points : List (ℕ × ℕ)) (source : StoreError),
    Run (Tagged S3Store.hexTag) ⟨w,fun _ => S3Store.eastern.perform
      (orders.perform (.insert "a" "1"))⟩ tr c ∧ c.calls 0 = .done (.error (.store source)) ∧
    Explained .empty (fun _ => .insert "a" "1") tr c out points := by
  have hrt : orders.codec.RoundTrips 2 := textCodec_roundTrips (by decide)
  obtain ⟨b,b₁,b₂,-,-,hd,-,-,hb₂⟩ := S3Store.market_documents
  have hsolo : Solo (Tagged S3Store.hexTag) 0 (S3Store.shelf orders.location b)
      (S3Store.eastern.perform ((procedure (.insert "a" "1")).program orders.medium)) _ _ _ :=
    S3Store.solo_reads (m := orders.medium) rfl hd (S3Store.solo_loses hb₂)
  rw [← perform_eq] at hsolo
  obtain ⟨c,hr,-,ha,-⟩ := hsolo.run (c := ⟨S3Store.shelf orders.location b,
    fun _ => S3Store.eastern.perform (orders.perform (.insert "a" "1"))⟩) rfl rfl
  obtain ⟨out,points,o,doc,hex,-⟩ := map_linearizable_on_s3 hrt S3Store.hexTag_tags
    S3Store.eastern_sends (S3Store.shelf_objects orders.location b) hd hr
  exact ⟨_,_,c,out,points,_,hr,ha,hex⟩

end Map

end Objsds
