import Objsds.Filesystem.Store

namespace Objsds

open Foundation

namespace Filesystem

-- `encoded[start..stop]`: a range that leaves the slice panics.
def slice (bytes : Bytes) (start stop : ℕ) : Option Bytes :=
  if start ≤ stop ∧ stop ≤ bytes.length then some ((bytes.drop start).take (stop - start)) else none

def getFrom (bytes : Bytes) (start : ℕ) : Option Bytes :=
  if start ≤ bytes.length then some (bytes.drop start) else none

-- `decode` with every index and range checked; `none` is a panic.
def decodeChecked (encoded : Bytes) : Option (Except StoreError Object) :=
  if encoded.length < HEADER_LEN then some (.error .invalidObjectFormat)
  else do
    let magic ← slice encoded 0 8
    if magic ≠ MAGIC then return .error .invalidObjectFormat
    let version ← encoded[8]?
    if version ≠ FORMAT_VERSION then return .error .unsupportedFormatVersion
    let revisionBytes ← slice encoded 9 25
    match Uuid.fromSlice revisionBytes with
    | none => return .error .invalidObjectFormat
    | some revision => do
        let lengthBytes ← slice encoded 25 33
        if lengthBytes.length ≠ 8 then return .error .invalidObjectFormat
        let length := ofBeBytes lengthBytes % 2 ^ 64
        match getFrom encoded HEADER_LEN with
        | none => return .error .invalidObjectFormat
        | some bytes =>
            if bytes.length ≠ length then return .error .invalidObjectFormat
            return .ok ⟨bytes,revisionVersion revision⟩

section Numbers

theorem ofBeBytes_lt (bytes : Bytes) : ofBeBytes bytes < 256 ^ bytes.length := by
  induction bytes using List.reverseRecOn with
  | nil => simp [ofBeBytes]
  | append_singleton bytes b ih =>
      have hb := b.toNat_lt
      have hstep : ofBeBytes (bytes ++ [b]) = 256 * ofBeBytes bytes + b.toNat := by
        simp [ofBeBytes]
      rw [hstep,List.length_append,List.length_singleton,Nat.pow_succ']
      omega

theorem toBeBytes_ofBeBytes (bytes : Bytes) :
    toBeBytes bytes.length (ofBeBytes bytes) = bytes := by
  induction bytes using List.reverseRecOn with
  | nil => rfl
  | append_singleton bytes b ih =>
      have hb := b.toNat_lt
      have hstep : ofBeBytes (bytes ++ [b]) = 256 * ofBeBytes bytes + b.toNat := by
        simp [ofBeBytes]
      have hdiv : (256 * ofBeBytes bytes + b.toNat) / 256 = ofBeBytes bytes := by omega
      have hlast : UInt8.ofNat (256 * ofBeBytes bytes + b.toNat) = b := by
        refine UInt8.toNat_inj.mp ?_
        rw [UInt8.toNat_ofNat']
        omega
      rw [hstep,List.length_append,List.length_singleton,toBeBytes,hdiv,ih,hlast]

theorem ofBeBytes_inj {xs ys : Bytes} (hlen : xs.length = ys.length)
    (h : ofBeBytes xs = ofBeBytes ys) : xs = ys := by
  rw [← toBeBytes_ofBeBytes xs,← toBeBytes_ofBeBytes ys,hlen,h]

theorem fromSlice_inj {xs ys : Bytes} {id : Uuid} (hx : Uuid.fromSlice xs = some id)
    (hy : Uuid.fromSlice ys = some id) : xs = ys := by
  have key : ∀ {zs : Bytes}, Uuid.fromSlice zs = some id → zs.length = 16 ∧ ofBeBytes zs = id.val := by
    intro zs hz
    rw [Uuid.fromSlice] at hz
    split at hz
    · rename_i hlen
      refine ⟨hlen,?_⟩
      rw [← Option.some.inj hz]
      have hlt := ofBeBytes_lt zs
      rw [hlen] at hlt
      exact (Nat.mod_eq_of_lt (by omega)).symm
    · simp at hz
  obtain ⟨hx,hvx⟩ := key hx
  obtain ⟨hy,hvy⟩ := key hy
  exact ofBeBytes_inj (hx.trans hy.symm) (hvx.trans hvy.symm)

theorem fromSlice_of_length {bytes : Bytes} (h : bytes.length = 16) :
    ∃ id, Uuid.fromSlice bytes = some id :=
  ⟨_,if_pos h⟩

theorem fromSlice_length {bytes : Bytes} {id : Uuid} (h : Uuid.fromSlice bytes = some id) :
    bytes.length = 16 := by
  rw [Uuid.fromSlice] at h
  split at h
  · assumption
  · simp at h

end Numbers

section Fields

def assemble (magic : Bytes) (version : UInt8) (revision length bytes : Bytes) : Bytes :=
  magic ++ version :: (revision ++ (length ++ bytes))

variable {magic revision length bytes : Bytes} {version : UInt8}

theorem assemble_length (hm : magic.length = 8) (hr : revision.length = 16)
    (hl : length.length = 8) :
    (assemble magic version revision length bytes).length = HEADER_LEN + bytes.length := by
  simp only [assemble,List.length_append,List.length_cons,hm,hr,hl,HEADER_LEN]
  omega

theorem exists_fields {encoded : Bytes} (h : HEADER_LEN ≤ encoded.length) :
    ∃ magic version revision length bytes, magic.length = 8 ∧ revision.length = 16 ∧
      length.length = 8 ∧ encoded = assemble magic version revision length bytes := by
  rw [HEADER_LEN] at h
  have hrest : (encoded.drop 8).length ≠ 0 := by
    rw [List.length_drop]
    omega
  obtain ⟨version,rest,hv⟩ := List.exists_cons_of_length_pos (Nat.pos_of_ne_zero hrest)
  have hlen : rest.length + 9 = encoded.length := by
    have := congrArg List.length hv
    rw [List.length_drop,List.length_cons] at this
    omega
  refine ⟨encoded.take 8,version,rest.take 16,(rest.drop 16).take 8,(rest.drop 16).drop 8,
    ?_,?_,?_,?_⟩
  · rw [List.length_take]
    omega
  · rw [List.length_take]
    omega
  · rw [List.length_take,List.length_drop]
    omega
  · rw [assemble,List.take_append_drop,List.take_append_drop,← hv,List.take_append_drop]

theorem slice_middle {xs ys zs : Bytes} {start stop : ℕ} (hx : xs.length = start)
    (hy : start + ys.length = stop) : slice (xs ++ (ys ++ zs)) start stop = some ys := by
  subst hx hy
  rw [slice,if_pos (by simp)]
  simp

theorem decodeChecked_assemble (hm : magic.length = 8) (hr : revision.length = 16)
    (hl : length.length = 8) {id : Uuid} (hid : Uuid.fromSlice revision = some id) :
    decodeChecked (assemble magic version revision length bytes) = some (
      if magic ≠ MAGIC then .error .invalidObjectFormat
      else if version ≠ FORMAT_VERSION then .error .unsupportedFormatVersion
      else if bytes.length ≠ ofBeBytes length then .error .invalidObjectFormat
      else .ok ⟨bytes,revisionVersion id⟩) := by
  have hlong : ¬ (assemble magic version revision length bytes).length < HEADER_LEN := by
    rw [assemble_length hm hr hl]
    omega
  have h₁ : slice (assemble magic version revision length bytes) 0 8 = some magic :=
    @slice_middle [] magic _ 0 8 rfl (by omega)
  have h₂ : (assemble magic version revision length bytes)[8]? = some version := by
    rw [assemble,List.getElem?_append_right (Nat.le_of_eq hm),hm]
    rfl
  have h₃ : slice (assemble magic version revision length bytes) 9 25 = some revision := by
    rw [assemble,← List.singleton_append,← List.append_assoc]
    exact slice_middle (by simp [hm]) (by omega)
  have h₄ : slice (assemble magic version revision length bytes) 25 33 = some length := by
    rw [assemble,← List.singleton_append,← List.append_assoc,← List.append_assoc]
    exact slice_middle (by simp [hm,hr]) (by omega)
  have h₅ : getFrom (assemble magic version revision length bytes) HEADER_LEN = some bytes := by
    rw [getFrom,if_pos (by rw [assemble_length hm hr hl]; omega),assemble,← List.singleton_append,
      ← List.append_assoc,← List.append_assoc,← List.append_assoc]
    exact congrArg some (List.drop_left' (by simp [hm,hr,hl,HEADER_LEN]))
  have hlt : ofBeBytes length % 2 ^ 64 = ofBeBytes length := by
    have := ofBeBytes_lt length
    rw [hl] at this
    exact Nat.mod_eq_of_lt (by omega)
  rw [decodeChecked,if_neg hlong]
  simp only [h₁,h₂,h₃,h₄,h₅,hid,hl,hlt,Option.bind_eq_bind,Option.bind_some,Option.pure_def,ne_eq,
    not_true_eq_false,if_false]
  split
  · rfl
  · split
    · rfl
    · split <;> rfl

theorem decodeChecked_short {encoded : Bytes} (h : encoded.length < HEADER_LEN) :
    decodeChecked encoded = some (.error .invalidObjectFormat) := if_pos h

theorem decodeChecked_eq (encoded : Bytes) : decodeChecked encoded = some (decode encoded) := by
  by_cases hshort : encoded.length < HEADER_LEN
  · rw [decodeChecked_short hshort,decode,if_pos (.inl hshort)]
  · obtain ⟨magic,version,revision,length,bytes,hm,hr,hl,rfl⟩ := exists_fields (Nat.not_lt.mp hshort)
    obtain ⟨id,hid⟩ := fromSlice_of_length hr
    have h₁ : (assemble magic version revision length bytes).take 8 = magic := List.take_left' hm
    have h₂ : (assemble magic version revision length bytes)[8]? = some version := by
      rw [assemble,List.getElem?_append_right (Nat.le_of_eq hm),hm]
      rfl
    have h₃ : (assemble magic version revision length bytes).drop 9 =
        revision ++ (length ++ bytes) := by
      rw [assemble,← List.singleton_append,← List.append_assoc]
      exact List.drop_left' (by simp [hm])
    have h₄ : (assemble magic version revision length bytes).drop 25 = length ++ bytes := by
      rw [show 25 = 9 + 16 from rfl,← List.drop_drop,h₃]
      exact List.drop_left' hr
    have h₅ : (assemble magic version revision length bytes).drop HEADER_LEN = bytes := by
      rw [show HEADER_LEN = 25 + 8 from rfl,← List.drop_drop,h₄]
      exact List.drop_left' hl
    rw [decodeChecked_assemble hm hr hl hid,decode]
    simp only [hshort,h₁,h₂,h₃,h₄,h₅,List.take_left' hr,List.take_left' hl,hid,false_or,ne_eq,
      Option.some.injEq]

end Fields

section Exactness

variable {encoded encoded' : Bytes} {object : Object}

theorem decodeChecked_eq_ok :
    decodeChecked encoded = some (.ok object) ↔ ∃ revision length id,
      encoded = assemble MAGIC FORMAT_VERSION revision length object.bytes ∧
      Uuid.fromSlice revision = some id ∧ object.version = revisionVersion id ∧
      length.length = 8 ∧ ofBeBytes length = object.bytes.length := by
  constructor
  · intro h
    by_cases hshort : encoded.length < HEADER_LEN
    · simp [decodeChecked_short hshort] at h
    · obtain ⟨magic,version,revision,length,bytes,hm,hr,hl,rfl⟩ :=
        exists_fields (Nat.not_lt.mp hshort)
      obtain ⟨id,hid⟩ := fromSlice_of_length hr
      rw [decodeChecked_assemble hm hr hl hid] at h
      split at h
      · simp at h
      · split at h
        · simp at h
        · split at h
          · simp at h
          · rename_i hmagic hversion hcount
            obtain rfl := Except.ok.inj (Option.some.inj h)
            obtain rfl := not_not.mp hmagic
            obtain rfl := not_not.mp hversion
            exact ⟨revision,length,id,rfl,hid,rfl,hl,(not_not.mp hcount).symm⟩
  · rintro ⟨revision,length,id,rfl,hid,hv,hl,hcount⟩
    rw [decodeChecked_assemble rfl (fromSlice_length hid) hl hid]
    simp [hcount,← hv]

theorem decodeChecked_unsupported :
    decodeChecked encoded = some (.error .unsupportedFormatVersion) ↔
      HEADER_LEN ≤ encoded.length ∧ MAGIC <+: encoded ∧
        ∃ version, encoded[8]? = some version ∧ version ≠ FORMAT_VERSION := by
  by_cases hshort : encoded.length < HEADER_LEN
  · simp [decodeChecked_short hshort,Nat.not_le.mpr hshort]
  · obtain ⟨magic,version,revision,length,bytes,hm,hr,hl,rfl⟩ :=
      exists_fields (Nat.not_lt.mp hshort)
    obtain ⟨id,hid⟩ := fromSlice_of_length hr
    have hbegins : MAGIC <+: assemble magic version revision length bytes ↔ magic = MAGIC := by
      constructor
      · rintro ⟨t,ht⟩
        exact (List.append_inj ht hm.symm).1.symm
      · rintro rfl
        exact List.prefix_append ..
    have hget : (assemble magic version revision length bytes)[8]? = some version := by
      rw [assemble,List.getElem?_append_right (Nat.le_of_eq hm),hm]
      rfl
    rw [decodeChecked_assemble hm hr hl hid,hbegins,hget]
    by_cases hmagic : magic = MAGIC
    · subst hmagic
      by_cases hversion : version = FORMAT_VERSION
      · by_cases hcount : bytes.length = ofBeBytes length <;> simp [hversion,hcount]
      · simp [hversion,Nat.not_lt.mp hshort]
    · simp [hmagic]

theorem decodeChecked_cases (encoded : Bytes) :
    (∃ object, decodeChecked encoded = some (.ok object)) ∨
      decodeChecked encoded = some (.error .invalidObjectFormat) ∨
      decodeChecked encoded = some (.error .unsupportedFormatVersion) := by
  by_cases hshort : encoded.length < HEADER_LEN
  · exact .inr (.inl (decodeChecked_short hshort))
  · obtain ⟨magic,version,revision,length,bytes,hm,hr,hl,rfl⟩ :=
      exists_fields (Nat.not_lt.mp hshort)
    obtain ⟨id,hid⟩ := fromSlice_of_length hr
    rw [decodeChecked_assemble hm hr hl hid]
    split
    · exact .inr (.inl rfl)
    · split
      · exact .inr (.inr rfl)
      · split
        · exact .inr (.inl rfl)
        · exact .inl ⟨_,rfl⟩

theorem assemble_inj {revision revision' length length' bytes bytes' : Bytes}
    (hr : revision.length = revision'.length) (hl : length.length = length'.length)
    (h : assemble MAGIC FORMAT_VERSION revision length bytes =
      assemble MAGIC FORMAT_VERSION revision' length' bytes') :
    revision = revision' ∧ length = length' ∧ bytes = bytes' := by
  have h := (List.cons.inj (List.append_inj h rfl).2).2
  obtain ⟨h₁,h⟩ := List.append_inj h hr
  obtain ⟨h₂,h₃⟩ := List.append_inj h hl
  exact ⟨h₁,h₂,h₃⟩

theorem assemble_append (magic : Bytes) (version : UInt8) (revision length bytes t : Bytes) :
    assemble magic version revision length bytes ++ t =
      assemble magic version revision length (bytes ++ t) := by
  simp [assemble]

theorem decodeChecked_unique (h : decodeChecked encoded = some (.ok object))
    (h' : decodeChecked encoded' = some (.ok object)) : encoded = encoded' := by
  obtain ⟨revision,length,id,rfl,hid,hv,hl,hcount⟩ := decodeChecked_eq_ok.mp h
  obtain ⟨revision',length',id',rfl,hid',hv',hl',hcount'⟩ := decodeChecked_eq_ok.mp h'
  obtain rfl := revisionVersion_injective (hv.symm.trans hv')
  rw [fromSlice_inj hid hid',ofBeBytes_inj (hl.trans hl'.symm) (hcount.trans hcount'.symm)]

-- The length field leaves no room: what can be read cannot be continued.
theorem decodeChecked_append {t : Bytes} {object' : Object}
    (h : decodeChecked encoded = some (.ok object))
    (h' : decodeChecked (encoded ++ t) = some (.ok object')) : t = [] := by
  obtain ⟨revision,length,id,rfl,hid,hv,hl,hcount⟩ := decodeChecked_eq_ok.mp h
  obtain ⟨revision',length',id',he,hid',hv',hl',hcount'⟩ := decodeChecked_eq_ok.mp h'
  rw [assemble_append] at he
  obtain ⟨-,rfl,hb⟩ := assemble_inj ((fromSlice_length hid).trans (fromSlice_length hid').symm)
    (hl.trans hl'.symm) he
  rw [hcount,← hb,List.length_append] at hcount'
  exact List.length_eq_zero_iff.mp (by omega)

theorem version_of_ok (h : decodeChecked encoded = some (.ok object)) :
    encoded[8]? = some FORMAT_VERSION := by
  obtain ⟨revision,length,id,rfl,-⟩ := decodeChecked_eq_ok.mp h
  rfl

theorem decodeChecked_comparable (h : decodeChecked encoded = some (.ok object))
    (hne : encoded' ≠ encoded) (hcmp : encoded' <+: encoded ∨ encoded <+: encoded') :
    decodeChecked encoded' = some (.error .invalidObjectFormat) := by
  have hversion : ∀ v, encoded'[8]? = some v → encoded[8]? = some v := by
    intro v hv
    rcases hcmp with ⟨t,rfl⟩ | ⟨t,rfl⟩
    · have hlt := (List.getElem?_eq_some_iff.mp hv).1
      rwa [List.getElem?_append_left hlt]
    · have hlt := (List.getElem?_eq_some_iff.mp (version_of_ok h)).1
      rwa [List.getElem?_append_left hlt] at hv
  rcases decodeChecked_cases encoded' with ⟨object',h'⟩ | h' | h'
  · rcases hcmp with ⟨t,rfl⟩ | ⟨t,rfl⟩
    · exact absurd (by simp [decodeChecked_append h' h]) hne
    · exact absurd (by simp [decodeChecked_append h h']) hne
  · exact h'
  · obtain ⟨-,-,v,hv,hnot⟩ := decodeChecked_unsupported.mp h'
    exact absurd (Option.some.inj ((hversion v hv).symm.trans (version_of_ok h))) hnot

theorem encode_follows {payload : Bytes} {h : List (Sigma SysReply)} {v : Version}
    (hf : (encode payload).Follows h (.done (v,encoded))) :
    ∃ revision, v = revisionVersion revision ∧ encoded = envelope revision payload := by
  rcases Program.follows_perform.mp hf with ⟨-,hd⟩ | ⟨revision,h',-,hn⟩
  · simp at hd
  · obtain ⟨-,hd⟩ := Program.follows_done.mp hn
    obtain ⟨rfl,rfl⟩ := Prod.mk.inj (Program.done.inj hd)
    exact ⟨revision,rfl,rfl⟩

theorem envelope_exact (payload : Bytes) (hlen : payload.length < 2 ^ 64) :
    (∀ b object, decodeChecked b = some (.ok object) ↔ ∃ revision length id,
      b = assemble MAGIC FORMAT_VERSION revision length object.bytes ∧
      Uuid.fromSlice revision = some id ∧ object.version = revisionVersion id ∧
      length.length = 8 ∧ ofBeBytes length = object.bytes.length) ∧
    (∀ b, decodeChecked b = some (.error .unsupportedFormatVersion) ↔
      HEADER_LEN ≤ b.length ∧ MAGIC <+: b ∧ ∃ version, b[8]? = some version ∧
        version ≠ FORMAT_VERSION) ∧
    (∀ b, decodeChecked b = some (decode b)) ∧
    (∀ h v encoded, (encode payload).Follows h (.done (v,encoded)) →
      decodeChecked encoded = some (.ok ⟨payload,v⟩) ∧
      (∀ b, b <+: encoded → b ≠ encoded → decodeChecked b = some (.error .invalidObjectFormat)) ∧
      ∀ b, encoded <+: b → b ≠ encoded → decodeChecked b = some (.error .invalidObjectFormat)) ∧
    ∀ b b' object, decodeChecked b = some (.ok object) → decodeChecked b' = some (.ok object) →
      b = b' := by
  refine ⟨fun _ _ => decodeChecked_eq_ok,fun _ => decodeChecked_unsupported,decodeChecked_eq,?_,
    fun _ _ _ => decodeChecked_unique⟩
  intro h v encoded hf
  obtain ⟨revision,rfl,rfl⟩ := encode_follows hf
  have hok : decodeChecked (envelope revision payload) =
      some (.ok ⟨payload,revisionVersion revision⟩) := by
    rw [decodeChecked_eq,decode_envelope revision hlen]
  exact ⟨hok,fun b hb hne => decodeChecked_comparable hok hne (.inl hb),
    fun b hb hne => decodeChecked_comparable hok hne (.inr hb)⟩

theorem envelope_exact_one_byte : ([7] : Bytes).length < 2 ^ 64 ∧
    decodeChecked (envelope 5 [7]) = some (.ok ⟨[7],revisionVersion 5⟩) :=
  ⟨by decide,((envelope_exact [7] (by decide)).2.2.2.1 [⟨.nowV7,5⟩] _ _ (.step (.refl _))).1⟩

end Exactness

end Filesystem

end Objsds
