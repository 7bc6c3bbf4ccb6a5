import Objsds.Memory.Rehearsal
import Objsds.System.Site

namespace Objsds

open Foundation

namespace Site

variable {ε : Type} {S : ObjectStore ε} {site : Site} {callers : ℕ → site.Caller} {s : S.State}
  {tr : Trace (Reply ε)} {c c' : Config S.State (Reply ε) Verdict} {ev : Event (Reply ε)}

def launch (S : ObjectStore ε) (site : Site) (callers : ℕ → site.Caller) (s : S.State) :
    Config S.State (Reply ε) Verdict :=
  ⟨s,fun i => (callers i).call.program⟩

def founders (site : Site) (tr : Trace (Reply ε)) : Trace (Reply ε) :=
  tr.filter (fun ev => founds site.location ev.answer)

-- An identifier some write of the run may have brought into a document.
def Contributed (site : Site) (tr : Trace (Reply ε)) (id : Uuid) : Prop :=
  ∃ tr₁ ev tr₂ o, tr = tr₁ ++ ev :: tr₂ ∧ stores site.location ev = some o ∧
    id ∈ identifiers (Trace.of ev.call tr₁)

def Sound (site : Site) (slot : Slot) (tr : Trace (Reply ε)) (o : Object) : Prop :=
  ∃ ids, site.Holds ε slot o.bytes ids ∧ ∀ id ∈ ids, site.Contributed tr id

inductive Occupancy (S : ObjectStore ε) (site : Site) (callers : ℕ → site.Caller)
    (tr : Trace (Reply ε)) (w : S.State) : Prop
  | vacant (absent : S.objects w site.location = none) (unfounded : site.founders tr = [])
      (unwritten : stored site.location tr = [])
  | occupied (ev : Event (Reply ε)) (present : S.objects w site.location ≠ none)
      (founded : site.founders tr = [ev])
      (sound : ∀ o ∈ stored site.location tr, site.Sound (callers ev.call).slot tr o)

theorem founders_snoc : site.founders (tr ++ [ev]) =
    site.founders tr ++ (if founds site.location ev.answer then [ev] else []) := by
  simp only [founders,List.filter_append,List.filter_cons,List.filter_nil]

theorem Contributed.snoc {id : Uuid} (h : site.Contributed tr id) :
    site.Contributed (tr ++ [ev]) id := by
  obtain ⟨tr₁,e,tr₂,o,rfl,ho,hid⟩ := h
  exact ⟨tr₁,e,tr₂ ++ [ev],o,by simp,ho,hid⟩

theorem Sound.snoc {slot : Slot} {o : Object} (h : site.Sound slot tr o) :
    site.Sound slot (tr ++ [ev]) o := by
  obtain ⟨ids,hh,hc⟩ := h
  exact ⟨ids,hh,fun id hid => (hc id hid).snoc⟩

theorem founds_stores {l : Location} (h : founds l ev.answer = true) :
    ∃ o, stores l ev = some o := by
  obtain ⟨i,e,r⟩ := ev
  match e,r,h with
  | .store (.create l' b),r,h =>
      simp only [founds,Event.answer,Bool.and_eq_true,decide_eq_true_eq] at h
      obtain ⟨v,hv⟩ := Option.isSome_iff_exists.mp h.2
      exact ⟨⟨b,v⟩,by simp [stores,Request.stores,h.1,hv]⟩

theorem Sound.fresh {slot : Slot} {o : Object} {ids : List Uuid} (h : site.Sound slot tr o)
    (hh : site.Holds ε slot o.bytes ids) (hfresh : (issued tr).Nodup) {i : ℕ}
    (hreads : ∀ x ∈ Trace.of i tr, isRead x = true) :
    ∀ id ∈ identifiers (Trace.of i tr), id ∉ ids := by
  intro id hid hmem
  obtain ⟨ids',hh',hc⟩ := h
  obtain rfl := hh.ids_eq hh'
  obtain ⟨tr₁,e,tr₂,o',rfl,ho',hid'⟩ := hc id hmem
  exact identifier_fresh hfresh hreads ho' hid' hid

theorem Occupancy.quiet (h : Occupancy S site callers tr c.world) (hs : Step S.Env c ev c')
    (hw : stores site.location ev = none) : Occupancy S site callers (tr ++ [ev]) c'.world := by
  have hobj := hs.world.objects_eq site.location
  rw [hw,Option.none_or] at hobj
  have hst : stored site.location (tr ++ [ev]) = stored site.location tr := by
    simp [stored_snoc,hw]
  have hfd : site.founders (tr ++ [ev]) = site.founders tr := by
    rw [founders_snoc,if_neg,List.append_nil]
    intro hf
    obtain ⟨o,ho⟩ := founds_stores hf
    simp [ho] at hw
  cases h with
  | vacant ha hf hu => exact .vacant (hobj.trans ha) (hfd.trans hf) (hst.trans hu)
  | occupied e hp hf hsound =>
      exact .occupied e (hobj ▸ hp) (hfd.trans hf) (hst ▸ fun o ho => (hsound o ho).snoc)

theorem Occupancy.create {b : Bytes} {r : CreateReply ε} {v : Version}
    (h : Occupancy S site callers tr c.world) (hs : Step S.Env c ev c')
    (ha : ev.answer = ⟨.store (.create site.location b),r⟩) (hv : r.written = some v)
    (hb : site.Holds ε (callers ev.call).slot b []) :
    Occupancy S site callers (tr ++ [ev]) c'.world := by
  obtain ⟨i,e,r'⟩ := ev
  simp only [Event.answer,Sigma.mk.injEq] at ha
  obtain ⟨rfl,hr⟩ := ha
  obtain rfl := eq_of_heq hr
  have hw : stores site.location (⟨i,.store (.create site.location b),r'⟩ : Event (Reply ε)) =
      some ⟨b,v⟩ := by
    simp [stores,Request.stores,hv]
  have hobj := hs.world.objects_eq site.location
  rw [hw,Option.some_or] at hobj
  have hf : founds site.location
      (⟨.store (.create site.location b),r'⟩ : Sigma (Reply ε)) = true := by
    simp [founds,hv]
  cases h with
  | occupied e hp => exact absurd (hs.world.atomic.created_inv hv) hp
  | vacant hab hfd hu =>
      refine .occupied _ (by simp [hobj]) (by rw [founders_snoc,hfd,Event.answer,if_pos hf]; rfl) ?_
      intro o ho
      rw [stored_snoc,hu,hw] at ho
      obtain rfl : o = ⟨b,v⟩ := by simpa using ho
      exact ⟨[],hb,by simp⟩

theorem Occupancy.replace (h : Run S.Env (site.launch S callers s) tr c)
    (hstart : S.objects s site.location = none) (hfresh : (issued tr).Nodup) {x v : Version}
    {b : Bytes} {r : ReplaceReply ε} (ho : Occupancy S site callers tr c.world)
    (hs : Step S.Env c ev c') (ha : ev.answer = ⟨.store (.replace site.location x b),r⟩)
    (hv : r.written = some v)
    (hr : site.Rewrites ε (callers ev.call).slot (Trace.of ev.call tr) b) :
    Occupancy S site callers (tr ++ [ev]) c'.world := by
  obtain ⟨⟨o₀,ids,hg,hh,hnext⟩,hreads⟩ := hr
  have hheld : o₀ ∈ stored site.location tr := by
    simpa [held,launch,hstart] using Run.got_mem_held h hg
  have hw : stores site.location ev = some ⟨b,v⟩ := by
    rw [stores_replace ha,hv]
    rfl
  have hobj := hs.world.objects_eq site.location
  rw [hw,Option.some_or] at hobj
  have hfd : site.founders (tr ++ [ev]) = site.founders tr := by
    simp [founders_snoc,ha,founds]
  cases ho with
  | vacant hab hfd' hu => simp [hu] at hheld
  | occupied e hp hf hsound =>
      refine .occupied e (by simp [hobj]) (hfd.trans hf) ?_
      intro o ho
      rw [stored_snoc,hw] at ho
      rcases List.mem_append.mp ho with ho | ho
      · exact (hsound o ho).snoc
      · obtain rfl : o = ⟨b,v⟩ := by simpa using ho
        obtain ⟨ids₁,hh₁,hc₁⟩ := hsound o₀ hheld
        have hslot := hh₁.slot_eq hh
        rw [hslot] at hh₁
        obtain rfl := hh₁.ids_eq hh
        obtain ⟨ids',hh',hsub⟩ := hnext (Sound.fresh ⟨_,hh,hc₁⟩ hh hfresh hreads)
        refine ⟨ids',hslot ▸ hh',fun id hid => ?_⟩
        rcases hsub id hid with hid | hid
        · exact (hc₁ id hid).snoc
        · exact ⟨tr,ev,[],_,rfl,hw,hid⟩

theorem Caller.effect {l : Location} {o : Object}
    (h : Run S.Env (site.launch S callers s) tr c) (hs : Step S.Env c ev c')
    (hw : stores l ev = some o) :
    l = site.location ∧
      ((∃ b r v, ev.answer = ⟨.store (.create site.location b),r⟩ ∧ CreateReply.written r = some v ∧
          site.Holds ε (callers ev.call).slot b []) ∨
        ∃ x b r v, ev.answer = ⟨.store (.replace site.location x b),r⟩ ∧
          ReplaceReply.written r = some v ∧
          site.Rewrites ε (callers ev.call).slot (Trace.of ev.call tr) b) := by
  obtain ⟨next,hc,-⟩ := hs.caller
  have hf := h.follows ev.call
  change ((callers ev.call).call.program).Follows _ _ at hf
  rw [hc] at hf
  obtain ⟨i,e,r⟩ := ev
  match e,r,hw with
  | .store (.create l' b),r,hw =>
      simp only [stores,Request.stores] at hw
      split at hw
      · rename_i hl
        obtain ⟨v,hv,-⟩ := Option.map_eq_some_iff.mp hw
        have hstep : (callers i).step ≠ none := fun hn => Caller.operation_creates hn hf
        rcases Caller.lifecycle_effect hstep hf with he | ⟨b',he,hb⟩
        · simp at he
        · obtain ⟨rfl,rfl⟩ := Request.create.inj (Effect.store.inj he)
          exact ⟨hl.symm,.inl ⟨b,r,v,rfl,hv,hb⟩⟩
      · simp at hw
  | .store (.replace l' x b),r,hw =>
      simp only [stores,Request.stores] at hw
      split at hw
      · rename_i hl
        obtain ⟨v,hv,-⟩ := Option.map_eq_some_iff.mp hw
        obtain ⟨rfl,hr⟩ := Caller.replaces hf
        exact ⟨hl.symm,.inr ⟨x,b,r,v,rfl,hv,hr⟩⟩
      · simp at hw

theorem occupancy (h : Run S.Env (site.launch S callers s) tr c)
    (hstart : S.objects s site.location = none) (hfresh : (issued tr).Nodup) :
    Occupancy S site callers tr c.world := by
  induction h with
  | nil => exact .vacant hstart rfl rfl
  | @snoc tr ev m c' hr hs ih =>
      have hfr := issued_nodup_of_append hfresh
      have ho := ih hfr
      cases hw : stores site.location ev with
      | none => exact ho.quiet hs hw
      | some o =>
          rcases (Caller.effect hr hs hw).2 with ⟨b,r,v,ha,hv,hb⟩ | ⟨x,b,r,v,ha,hv,hrw⟩
          · exact ho.create hs ha hv hb
          · exact ho.replace hr hstart hfr hs ha hv hrw

theorem founded_by {i : ℕ} {b : Bytes} {v : Version}
    (hx : ⟨.store (.create site.location b),CreateReply.created v⟩ ∈ Trace.of i tr) :
    ∃ ev ∈ site.founders tr, ev.call = i := by
  obtain ⟨ev,hev,hc,ha⟩ := Trace.mem_of.mp hx
  exact ⟨ev,List.mem_filter.mpr ⟨hev,by simp [ha,founds,CreateReply.written]⟩,hc⟩

theorem lifecycle_keeps (h : Run S.Env (site.launch S callers s) tr c) (hs : Step S.Env c ev c')
    (hstep : (callers ev.call).step ≠ none) (hp : S.objects c.world site.location ≠ none) :
    S.objects c'.world = S.objects c.world := by
  funext l
  rw [hs.world.objects_eq l]
  cases hw : stores l ev with
  | none => exact Option.none_or
  | some o =>
      obtain ⟨rfl,⟨b,r,v,ha,hv,-⟩ | ⟨x,b,r,v,ha,-,-⟩⟩ := Caller.effect h hs hw
      · obtain ⟨i,e,r'⟩ := ev
        simp only [Event.answer,Sigma.mk.injEq] at ha
        obtain ⟨rfl,hr⟩ := ha
        obtain rfl := eq_of_heq hr
        exact absurd (hs.world.atomic.created_inv hv) hp
      · obtain ⟨next,hc,-⟩ := hs.caller
        have hf := h.follows ev.call
        change ((callers ev.call).call.program).Follows _ _ at hf
        rw [hc] at hf
        have he := congrArg Sigma.fst ha
        rcases Caller.lifecycle_effect hstep hf with he' | ⟨_,he',-⟩ <;>
          simp [Event.answer,he'] at he

-- The verdict of a finished `open_or_create`: its caller won the creation, or it inspected an
-- object of the run, and then its verdict is that object's slot against its own.
theorem openOrCreate_verdict (h : Run S.Env (site.launch S callers s) tr c)
    (hstart : S.objects s site.location = none) (hfresh : (issued tr).Nodup)
    (hok : ∀ ev ∈ tr, ¬ storeFailed ev.answer) {i : ℕ} {v : Verdict}
    (hstep : (callers i).step = some .openOrCreate) (hd : c.calls i = .done v) :
    ∃ ev, site.founders tr = [ev] ∧
      (v = .ok .positive ∧ (callers ev.call).slot = (callers i).slot ∨
        ∃ k, v = .error k ∧ Foreign k ∧ (callers ev.call).slot ≠ (callers i).slot) := by
  have hf := h.follows i
  change ((callers i).call.program).Follows _ _ at hf
  rw [hd] at hf
  have ha := Caller.openOrCreate_inv hstep hf
  generalize hh : Trace.of i tr = hist at ha
  cases ha with
  | failed v x hx hs => exact absurd hs (of_not_storeFailed hok (hh ▸ hx))
  | created b ver hx =>
      obtain ⟨ev,hev,hc⟩ := founded_by (hh ▸ hx)
      cases occupancy h hstart hfresh with
      | vacant _ hfd => simp [hfd] at hev
      | occupied e _ hfd =>
          obtain rfl : ev = e := by simpa [hfd] using hev
          exact ⟨ev,hfd,.inl ⟨rfl,by rw [hc]⟩⟩
  | inspected h' x reply hx hshow hlast =>
      obtain ⟨tr₁,e,tr₂,rfl,hc,hans,hof⟩ := Trace.of_snoc_inv (hh.trans hlast)
      obtain ⟨e₀,he₀,-,rfl⟩ := Trace.mem_of.mp (hof ▸ hx)
      obtain ⟨m,m',hm,hs,hrest⟩ := h.split
      have hp := Run.shown hm he₀ hshow
      obtain ⟨o,ho⟩ := Option.ne_none_iff_exists'.mp hp
      have hreply : reply = .ok (some o) := by
        obtain ⟨j,f,r⟩ := e
        simp only [Event.answer,Sigma.mk.injEq] at hans
        obtain ⟨rfl,hr⟩ := hans
        obtain rfl := eq_of_heq hr
        rcases hs.world.atomic.got_inv with hr | ⟨err,hr⟩
        · rw [hr,ho]
        · exact absurd ⟨err,hr⟩ (hok _ (List.mem_append_right _ (List.mem_cons_self ..)))
      subst hreply
      have hmem : o ∈ stored site.location (tr₁ ++ e :: tr₂) := by
        have hheld := Run.current_mem_held hm ho
        simp only [launch,hstart,held,Option.toList_none,List.nil_append] at hheld
        rw [stored_append]
        exact List.mem_append_left _ hheld
      cases occupancy h hstart hfresh with
      | vacant _ _ hu => simp [hu] at hmem
      | occupied ev _ hfd hsound =>
          obtain ⟨ids,hids,-⟩ := hsound o hmem
          refine ⟨ev,hfd,?_⟩
          rcases site.inspection_cases (callers i).slot (.ok (some o) : Except ε _) with hv | ⟨k,hv⟩
          · obtain ⟨ids',hids'⟩ := inspection_ok.mp hv
            exact .inl ⟨hv,hids.slot_eq hids'⟩
          · refine .inr ⟨k,hv,inspection_error hv,fun hslot => ?_⟩
            rw [inspection_ok.mpr ⟨ids,hslot ▸ hids⟩] at hv
            simp at hv

theorem structure_created_once (S : ObjectStore ε) (site : Site) (callers : ℕ → site.Caller)
    (s : S.State) (hstart : S.objects s site.location = none) (tr : Trace (Reply ε))
    (c : Config S.State (Reply ε) Verdict) (hrun : Run S.Env (site.launch S callers s) tr c)
    (hok : ∀ ev ∈ tr, ¬ storeFailed ev.answer) (hfresh : (issued tr).Nodup) :
    (site.founders tr).length ≤ 1 ∧
    (∀ i j a b, (callers i).step = some .create → (callers j).step = some .create →
      c.calls i = .done (.ok a) → c.calls j = .done (.ok b) → i = j) ∧
    (∀ tr₁ ev tr₂ m m', tr = tr₁ ++ ev :: tr₂ → Run S.Env (site.launch S callers s) tr₁ m →
      Step S.Env m ev m' → (callers ev.call).step ≠ none →
      S.objects m.world site.location ≠ none → S.objects m'.world = S.objects m.world) ∧
    (∀ i v, (callers i).step = some .openOrCreate → c.calls i = .done v →
      v ≠ .error .notFound ∧ v ≠ .error .alreadyExists ∧ v ≠ .error .conflict) ∧
    ∀ i v, (callers i).step = some .openOrCreate → c.calls i = .done v →
      ∃ ev, site.founders tr = [ev] ∧
        (v = .ok .positive ↔ (callers ev.call).slot = (callers i).slot) := by
  have hocc := occupancy hrun hstart hfresh
  refine ⟨?_,?_,?_,?_,?_⟩
  · cases hocc with
    | vacant _ hf => simp [hf]
    | occupied ev _ hf => simp [hf]
  · intro i j a b hi hj hdi hdj
    have won : ∀ {i a}, (callers i).step = some .create → c.calls i = .done (.ok a) →
        ∃ ev ∈ site.founders tr, ev.call = i := by
      intro i a hi hd
      have hf := hrun.follows i
      change ((callers i).call.program).Follows _ _ at hf
      rw [hd] at hf
      obtain ⟨b,v,hx⟩ := Caller.create_ok hi hf
      exact founded_by hx
    obtain ⟨e,he,rfl⟩ := won hi hdi
    obtain ⟨e',he',rfl⟩ := won hj hdj
    cases hocc with
    | vacant _ hf => simp [hf] at he
    | occupied ev _ hf =>
        rw [hf,List.mem_singleton] at he he'
        rw [he,he']
  · intro tr₁ ev tr₂ m m' htr hm hs hstep hp
    exact lifecycle_keeps hm hs hstep hp
  · intro i v hi hd
    obtain ⟨ev,-,⟨rfl,-⟩ | ⟨k,rfl,hk,-⟩⟩ := openOrCreate_verdict hrun hstart hfresh hok hi hd
    · simp
    · rcases hk with rfl | rfl | rfl <;> simp
  · intro i v hi hd
    obtain ⟨ev,hf,⟨rfl,hs⟩ | ⟨k,rfl,hk,hs⟩⟩ := openOrCreate_verdict hrun hstart hfresh hok hi hd
    · exact ⟨ev,hf,by simp [hs]⟩
    · exact ⟨ev,hf,by simp [hs]⟩

def shop : Site where
  location := Map.orders.location
  V := fun _ _ => String
  codec := fun _ _ => textCodec
  serde := compact
  roundTrips := fun k _ => textCodec_roundTrips (by cases k <;> decide)

def shopBuilder : MapBuilder String :=
  (MapBuilder.new "shop" "orders" textCodec compact).withSchema "v1"

theorem shopBuilder_finish : shopBuilder.finish = .ok (shop.map "v1") := by
  rfl

def newcomer : shop.Caller := .mapLifecycle "v1" shopBuilder shopBuilder_finish .openOrCreate

-- Two callers find nothing, and both try to create.
theorem newcomers_create_once : ∃ (tr : Trace (Reply Empty))
    (c : Config Memory.store.State (Reply Empty) Verdict),
    Run Memory.store.Env (shop.launch Memory.store (fun _ => newcomer) Memory.State.default) tr c ∧
      c.calls 0 = .done (.ok .positive) ∧ c.calls 1 = .done (.ok .positive) ∧
      ∃ ev, shop.founders tr = [ev] ∧ ev.call = 1 := by
  have hplay : plays Memory.Script.answer Memory.Script.state [(0,1),(1,9),(0,9)]
      ⟨⟨[],[],Memory.State.default⟩,fun _ => newcomer.call.program⟩ (fun tr c =>
        ended (· = .ok .positive) (c.calls 0) && ended (· = .ok .positive) (c.calls 1) &&
        (issued tr).Nodup && (shop.founders tr).map Event.call = [1]) = true := by
    decide +kernel
  obtain ⟨tr,c,hr,hends⟩ := Memory.Script.run hplay
  simp only [Bool.and_eq_true,ended_iff,decide_eq_true_eq] at hends
  obtain ⟨⟨⟨⟨_,h0,rfl⟩,⟨_,h1,rfl⟩⟩,hnodup⟩,hfirst⟩ := hends
  obtain ⟨ev,hev,-⟩ := (structure_created_once Memory.store shop (fun _ => newcomer) _ rfl tr c hr
    (fun ev _ => not_storeFailed_empty ev.answer) hnodup).2.2.2.2 0 _ rfl h0
  exact ⟨tr,c,hr,h0,h1,ev,hev,by simpa [hev] using hfirst⟩

end Site

end Objsds
