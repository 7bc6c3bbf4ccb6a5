import Objsds.Store.Hex

namespace Objsds

namespace Filesystem

-- `io::ErrorKind`, as far as the adapter and `create_dir_all` tell kinds apart.
inductive IoError where
  | notFound
  | alreadyExists
  | notADirectory
  | isADirectory
  | filesystemLoop
  | other
deriving DecidableEq

inductive StoreError where
  | invalidLocation
  | io (source : IoError)
  | invalidObjectFormat
  | unsupportedFormatVersion
deriving DecidableEq

def MAGIC : Bytes := [79,66,74,83,68,83,70,83]

def FORMAT_VERSION : UInt8 := 1

def HEADER_LEN : ℕ := 33

def toBeBytes : ℕ → ℕ → Bytes
  | 0, _ => []
  | width + 1, n => toBeBytes width (n / 256) ++ [UInt8.ofNat n]

def ofBeBytes (bytes : Bytes) : ℕ := bytes.foldl (fun n b => 256 * n + b.toNat) 0

def Uuid.fromSlice (bytes : Bytes) : Option Uuid :=
  if bytes.length = 16 then some (Fin.ofNat (2 ^ 128) (ofBeBytes bytes)) else none

def envelope (revision : Uuid) (bytes : Bytes) : Bytes :=
  MAGIC ++ FORMAT_VERSION :: (toBeBytes 16 revision.val ++ (toBeBytes 8 bytes.length ++ bytes))

def revisionVersion (revision : Uuid) : Version := ⟨revision.text⟩

def decode (encoded : Bytes) : Except StoreError Object :=
  if encoded.length < HEADER_LEN ∨ encoded.take 8 ≠ MAGIC then .error .invalidObjectFormat
  else if encoded[8]? ≠ some FORMAT_VERSION then .error .unsupportedFormatVersion
  else match Uuid.fromSlice ((encoded.drop 9).take 16) with
    | none => .error .invalidObjectFormat
    | some revision =>
        let length := ofBeBytes ((encoded.drop 25).take 8)
        let bytes := encoded.drop HEADER_LEN
        if bytes.length ≠ length then .error .invalidObjectFormat
        else .ok ⟨bytes,revisionVersion revision⟩

theorem revisionVersion_injective : Function.Injective revisionVersion := by
  intro x y h
  exact Uuid.text_injective (congrArg Version.asStr h)

@[simp] theorem toBeBytes_length (width n : ℕ) : (toBeBytes width n).length = width := by
  induction width generalizing n with
  | zero => rfl
  | succ width ih => simp [toBeBytes,ih]

theorem ofBeBytes_toBeBytes (width n : ℕ) : ofBeBytes (toBeBytes width n) = n % 256 ^ width := by
  induction width generalizing n with
  | zero => simp [toBeBytes,ofBeBytes,Nat.mod_one]
  | succ width ih =>
      have ih' : (toBeBytes width (n / 256)).foldl (fun n b => 256 * n + b.toNat) 0 =
          n / 256 % 256 ^ width := ih (n / 256)
      have hmod : n % 256 ^ (width + 1) = 256 * (n / 256 % 256 ^ width) + n % 256 := by
        rw [Nat.pow_succ',Nat.mod_mul]
        omega
      rw [ofBeBytes,toBeBytes,List.foldl_append,ih',hmod]
      simp

theorem fromSlice_toBeBytes (id : Uuid) : Uuid.fromSlice (toBeBytes 16 id.val) = some id := by
  have hlt : id.val < 256 ^ 16 := by have := id.isLt; omega
  rw [Uuid.fromSlice,if_pos (toBeBytes_length ..),ofBeBytes_toBeBytes,Nat.mod_eq_of_lt hlt]
  simp

theorem decode_envelope (revision : Uuid) {bytes : Bytes} (h : bytes.length < 2 ^ 64) :
    decode (envelope revision bytes) = .ok ⟨bytes,revisionVersion revision⟩ := by
  have hmagic : MAGIC.length = 8 := rfl
  have hlen : (envelope revision bytes).length = 33 + bytes.length := by
    simp [envelope,hmagic]
    omega
  have htake : (envelope revision bytes).take 8 = MAGIC := List.take_left' hmagic
  have hversion : (envelope revision bytes)[8]? = some FORMAT_VERSION := by
    rw [envelope,List.getElem?_append_right (Nat.le_of_eq hmagic)]
    rfl
  have hbody : (envelope revision bytes).drop 9 =
      toBeBytes 16 revision.val ++ (toBeBytes 8 bytes.length ++ bytes) := by
    rw [envelope,← List.singleton_append,← List.append_assoc]
    exact List.drop_left' rfl
  have hrev : ((envelope revision bytes).drop 9).take 16 = toBeBytes 16 revision.val := by
    rw [hbody]
    exact List.take_left' (toBeBytes_length ..)
  have hrest : (envelope revision bytes).drop 25 = toBeBytes 8 bytes.length ++ bytes := by
    rw [show 25 = 9 + 16 from rfl,← List.drop_drop,hbody]
    exact List.drop_left' (toBeBytes_length ..)
  have hcount : ((envelope revision bytes).drop 25).take 8 = toBeBytes 8 bytes.length := by
    rw [hrest]
    exact List.take_left' (toBeBytes_length ..)
  have hdata : (envelope revision bytes).drop HEADER_LEN = bytes := by
    rw [show HEADER_LEN = 25 + 8 from rfl,← List.drop_drop,hrest]
    exact List.drop_left' (toBeBytes_length ..)
  have hlength : ofBeBytes (toBeBytes 8 bytes.length) = bytes.length := by
    rw [ofBeBytes_toBeBytes]
    exact Nat.mod_eq_of_lt (by omega)
  have hlong : ¬ (envelope revision bytes).length < HEADER_LEN := by
    rw [hlen,HEADER_LEN]
    omega
  simp [decode,hlong,htake,hversion,hrev,hcount,hdata,fromSlice_toBeBytes,hlength]

end Filesystem

end Objsds
