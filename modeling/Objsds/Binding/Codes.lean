import Objsds.Binding.Execute

namespace Objsds

open Foundation

variable {ε : Type}

def Json.member (name : String) : Json → Option Json
  | .object members => (members.find? (·.1 = name)).map Prod.snd
  | _ => none

def Json.string? : Json → Option String
  | .string s => some s
  | _ => none

namespace Binding

def envelopeMark : String := "OBJSDS_ERR_JSON:"

def envelopeText (reason : String) : Option String :=
  if envelopeMark.toList.isPrefixOf reason.toList then
    some (String.ofList (reason.toList.drop envelopeMark.toList.length))
  else none

-- The code of the error that `decorateNativeError` makes of a native one, if it makes any.
def errorCode (self : Binding ε) (error : NapiError) : Option String := do
  let text ← envelopeText error.reason
  let envelope ← (self.serde.fromText text).toOption
  let code ← envelope.member "code"
  code.string?

def invalidHandleCode : String := "ERR_OBJSDS_INVALID_HANDLE"

theorem envelopeText_mark (text : String) : envelopeText (envelopeMark ++ text) = some text := by
  simp [envelopeText,String.toList_append]

theorem object_code (code message : String) (details : Json) :
    (object [("code",.string code),("message",.string message),("details",details)]).member
      "code" = some (.string code) := by
  have hmember : ∀ m : SortedMap String Json, (Json.object m.entries).member "code" = m.get? "code" :=
    fun _ => rfl
  rw [object,Json.toValue,hmember]
  simp only [Json.toValueMembers,Json.toValue,List.foldl_cons,List.foldl_nil]
  rw [SortedMap.get?_insert_of_ne _ _ (by decide),SortedMap.get?_insert_of_ne _ _ (by decide),
    SortedMap.get?_insert_self]

theorem errorCode_bindingError (self : Binding ε) (code message : String) {details : Json}
    (hd : details.depth + 1 ≤ recursionLimit) :
    self.errorCode (self.bindingError code message details) = some code := by
  have hdepth : (object [("code",.string code),("message",.string message),
      ("details",details)]).depth ≤ recursionLimit := by
    refine (Json.toValue_depth_le _).trans ?_
    simpa [Json.depth,Json.depthMembers] using hd
  simp only [errorCode,bindingError]
  rw [show "OBJSDS_ERR_JSON:" = envelopeMark from rfl,envelopeText_mark]
  simp [self.serde.fromText_toText _ hdepth,Except.toOption,object_code,Json.string?]

theorem object_depth {members : List (String × Json)} (h : Json.depthMembers members ≤ 1) :
    (object members).depth + 1 ≤ recursionLimit := by
  have hle := Json.toValue_depth_le (Json.object members)
  simp only [Json.depth] at hle
  have : (object members).depth ≤ 2 := hle.trans (by omega)
  exact (Nat.add_le_add_right this 1).trans (by decide)

theorem errorCode_invalidHandle (self : Binding ε) :
    self.errorCode self.invalidHandle = some invalidHandleCode :=
  self.errorCode_bindingError _ _ (object_depth (by simp [Json.depthMembers]))

def Foreign (self : Binding ε) (error : NapiError) : Prop :=
  self.errorCode error ≠ some invalidHandleCode

section Foreign

variable {self : Binding ε} {code message : String} {error : NapiError}

theorem bindingError_foreign {members : List (String × Json)} (hc : code ≠ invalidHandleCode)
    (hd : Json.depthMembers members ≤ 1) :
    self.Foreign (self.bindingError code message (object members)) := by
  rw [Foreign,self.errorCode_bindingError _ _ (object_depth hd)]
  simpa using hc

theorem operationError_foreign (self : Binding ε) (e : Error ε) :
    self.Foreign (self.operationError e) := by
  cases e with
  | conflict expected observed =>
      refine bindingError_foreign (by decide) ?_
      cases observed <;> simp [versionJson,Json.depthMembers,Json.depth]
  | _ => exact bindingError_foreign (by decide) (by simp [Json.depthMembers,Json.depth])

theorem queueError_foreign (self : Binding ε) (e : Queue.Error ε) :
    self.Foreign (self.queueError e) := by
  cases e with
  | conflict expected observed =>
      refine bindingError_foreign (by decide) ?_
      cases observed <;> simp [versionJson,Json.depthMembers,Json.depth]
  | _ => exact bindingError_foreign (by decide) (by simp [Json.depthMembers,Json.depth])

theorem parseValue_foreign {text : String} (h : self.parseValue text = .error error) :
    self.Foreign error := by
  obtain ⟨e,-,rfl⟩ := except_mapError_eq_error.mp h
  exact bindingError_foreign (by decide) (by simp [Json.depthMembers])

theorem parseId_foreign {what field text : String} (hc : code ≠ invalidHandleCode)
    (h : self.parseId code what field text = .error error) : self.Foreign error := by
  unfold parseId at h
  split at h
  · simp at h
  · obtain rfl := Except.error.inj h
    exact bindingError_foreign hc (by simp [Json.depthMembers,Json.depth])

theorem parseLogId_foreign {id : String} (h : self.parseLogId id = .error error) :
    self.Foreign error :=
  parseId_foreign (by decide) h

theorem parseMessageId_foreign {id : String} (h : self.parseMessageId id = .error error) :
    self.Foreign error :=
  parseId_foreign (by decide) h

theorem parseLeaseToken_foreign {token : String} (h : self.parseLeaseToken token = .error error) :
    self.Foreign error :=
  parseId_foreign (by decide) h

theorem leaseDuration_foreign {leaseMillis : Int64}
    (h : self.leaseDuration leaseMillis = .error error) : self.Foreign error := by
  unfold leaseDuration at h
  split at h
  · obtain rfl := Except.error.inj h
    exact bindingError_foreign (by decide) (by simp [Json.depthMembers])
  · simp at h

end Foreign

end Binding

end Objsds
