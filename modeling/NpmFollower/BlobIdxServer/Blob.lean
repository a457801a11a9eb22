import NpmFollower.Library.FiniteMap
import NpmFollower.BlobIdxServer.Redis

/-! # The state of the blob index

The server keeps the slices by key and the files by id, in memory and as JSON
texts in Redis. The locks, the cleaners and the waiting calls are in memory
only, so a restart forgets them.
-/

namespace NpmFollower

open Std PostgresDb

namespace PostgresDb.Value

def ofU32 (n : UInt32) : Value := .number (.posInt n.toNat)

def ofU64 (n : UInt64) : Value := .number (.posInt n.toNat)

def asU32 : Value → Option UInt32
  | .number (.posInt n) => if n < 2 ^ 32 then some (.ofNat n) else none
  | _ => none

def asU64 : Value → Option UInt64
  | .number (.posInt n) => if n < 2 ^ 64 then some (.ofNat n) else none
  | _ => none

theorem asU32_ofU32 (n : UInt32) : (ofU32 n).asU32 = some n := by
  rw [ofU32, asU32, if_pos n.toNat_lt, UInt32.ofNat_toNat]

theorem asU64_ofU64 (n : UInt64) : (ofU64 n).asU64 = some n := by
  rw [ofU64, asU64, if_pos n.toNat_lt, UInt64.ofNat_toNat]

end PostgresDb.Value

namespace BlobIdxServer

/-- The place of a blob. -/
structure BlobStorageSlice where
  fileId : UInt32
  fileName : String
  byteOffset : UInt64
  numBytes : UInt64
deriving DecidableEq

/-- Where a client writes its blobs. -/
structure BlobOffset where
  fileId : UInt32
  fileName : String
  byteOffset : UInt64
  needsCreation : Bool
deriving DecidableEq

structure BlobEntry where
  key : String
  numBytes : UInt64
deriving DecidableEq

inductive BlobError where
  | alreadyExists (key : String)
  | createNotLocked
  | duplicateKeys
  | doesNotExist (key : String)
  | notWritten
  | wrongNode
  | lockExpired
  | prohibitedKey
deriving DecidableEq

structure LockWrapper where
  slice : BlobStorageSlice
  written : Bool
  lock : Option String
deriving DecidableEq

/-- A file of the pool. Its `unlock_notify` is known by the file id. -/
structure FileInfo where
  size : UInt64
  fileId : UInt32
  fileName : String
deriving DecidableEq

namespace BlobStorageSlice

def serialize (s : BlobStorageSlice) : Value :=
  .object [("file_id", .ofU32 s.fileId), ("file_name", .string s.fileName),
    ("byte_offset", .ofU64 s.byteOffset), ("num_bytes", .ofU64 s.numBytes)]

def deserialize (v : Value) : Option BlobStorageSlice := do
  let m ← v.asObject
  return {
    fileId := ← (← m.get "file_id").asU32
    fileName := ← (← m.get "file_name").asString
    byteOffset := ← (← m.get "byte_offset").asU64
    numBytes := ← (← m.get "num_bytes").asU64 }

theorem deserialize_serialize (s : BlobStorageSlice) : deserialize s.serialize = some s := by
  simp [deserialize, serialize, Value.asObject, JsonMap.get, List.lookup, Value.asU32_ofU32,
    Value.asU64_ofU64, Value.asString]

end BlobStorageSlice

namespace LockWrapper

/-- The lock is not serialized. -/
def serialize (l : LockWrapper) : Value :=
  .object [("slice", l.slice.serialize), ("written", .bool l.written)]

def deserialize (v : Value) : Option LockWrapper := do
  let m ← v.asObject
  return {
    slice := ← BlobStorageSlice.deserialize (← m.get "slice")
    written := ← (← m.get "written").asBool
    lock := none }

theorem deserialize_serialize (l : LockWrapper) :
    deserialize l.serialize = some { l with lock := none } := by
  simp [deserialize, serialize, Value.asObject, JsonMap.get, List.lookup,
    BlobStorageSlice.deserialize_serialize, Value.asBool]

end LockWrapper

namespace FileInfo

def serialize (f : FileInfo) : Value :=
  .object [("size", .ofU64 f.size), ("file_id", .ofU32 f.fileId), ("file_name", .string f.fileName)]

def deserialize (v : Value) : Option FileInfo := do
  let m ← v.asObject
  return {
    size := ← (← m.get "size").asU64
    fileId := ← (← m.get "file_id").asU32
    fileName := ← (← m.get "file_name").asString }

theorem deserialize_serialize (f : FileInfo) : deserialize f.serialize = some f := by
  simp [deserialize, serialize, Value.asObject, JsonMap.get, List.lookup, Value.asU32_ofU32,
    Value.asU64_ofU64, Value.asString]

end FileInfo

/-- A call of the server, numbered in the order of their starts. -/
abbrev CallId := ℕ

/-- The lock of a file. Its `notify_unlock` is the `unlock_notify` of the file. The last field is
history that the code does not have: the call that took the lock. -/
structure FileLock where
  nodeId : String
  keys : List String
  acquisition : CallId
deriving DecidableEq

/-- A running lock cleaner: its file, and whether its channel holds a message. The channel has room
for one. -/
structure Cleaner where
  fileId : UInt32
  keepAlive : Bool
deriving DecidableEq

/-- The time of `lock_timeout` is left out: a timer may expire at any moment. -/
structure BlobStorageConfig where
  maxFiles : UInt32
deriving DecidableEq

abbrev DashMap (κ α : Type) [Ord κ] := ExtTreeMap κ α compare

structure BlobStorage where
  config : BlobStorageConfig
  map : DashMap String LockWrapper
  filePool : DashMap UInt32 FileInfo
  lockedFiles : DashMap UInt32 FileLock
  /-- The call that holds the lock for picking a file. -/
  fileLock : Option CallId
  /-- A cleaner is known by the call that has spawned it. -/
  cleanupTasks : DashMap UInt32 CallId

namespace BlobStorage

/-- `init`; a panic is `none`. -/
def init (config : BlobStorageConfig) (redis : Redis) : Option BlobStorage :=
  match redis[filePoolKey]? with
  | none => some ⟨config, ∅, ∅, ∅, none, ∅⟩
  | some (.string _) => none
  | some (.hash fields) => do
    let infos ← fields.toList.mapM fun e => FileInfo.deserialize e.2
    let filePool : DashMap UInt32 FileInfo :=
      infos.foldl (fun pool info => pool.insert info.fileId info) ∅
    let config :=
      if config.maxFiles.toNat < filePool.size then ⟨.ofNat filePool.size⟩ else config
    return ⟨config, ∅, filePool, ∅, none, ∅⟩

end BlobStorage

end BlobIdxServer

end NpmFollower
