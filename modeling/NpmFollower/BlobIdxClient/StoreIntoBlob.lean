import NpmFollower.Library.SharedFiles
import NpmFollower.BlobIdxServer.Calls

/-! # The clients of the blob index

A client stores a batch of blobs in a session: it asks for a range of a chunk
file, writes the blobs there one after the other, and has them unlocked. Another
one looks a key up and reads its range. The offset files, which nothing reads, are
left out, and so is all that happens before the blobs are in memory.
-/

namespace NpmFollower.BlobIdxClient

open Std BlobIdxServer SharedFiles

structure Blob where
  key : String
  bytes : List UInt8
deriving DecidableEq

def blobEntries (blobs : List Blob) : List BlobEntry :=
  blobs.map fun b => ⟨b.key, .ofNat b.bytes.length⟩

/-- Where `store_into_blob` is. -/
inductive SessionState where
  /-- It waits for `create_and_lock`. -/
  | creating
  | locked (blob : BlobOffset)
  /-- It has opened the file and writes. -/
  | writing (blob : BlobOffset) (position : ℕ) (rest : List (List UInt8))
  /-- It waits for this call of `create_unlock`. -/
  | unlocking (blob : BlobOffset) (call : CallId)
  | stored (blob : BlobOffset)
  | failed
deriving DecidableEq

structure Session where
  blobs : List Blob
  nodeId : String
  state : SessionState
deriving DecidableEq

/-- The server, the files of the blob storage directory and the sessions, which are known by their
calls of `create_and_lock`. -/
structure Store where
  server : Server
  files : DashMap String (List UInt8)
  sessions : DashMap CallId Session

/-- The largest offset in a file, which is signed. -/
def maxFileSize : ℕ := 2 ^ 63 - 1

/-- A call has returned. -/
def SessionState.receive (session : CallId) (e : Event) : SessionState → SessionState
  | creating =>
    if e.call = session then
      match e.response with
      | .offset blob => locked blob
      | _ => failed
    else creating
  | unlocking blob call =>
    if e.call = call then
      match e.response with
      | .unlocked => stored blob
      | _ => failed
    else unlocking blob call
  | state => state

inductive Move where
  /-- A session starts. -/
  | store (blobs : List Blob) (nodeId : String)
  | openFile (session : CallId)
  /-- A session writes so many bytes. -/
  | write (session : CallId) (n : ℕ)
  | unlock (session : CallId)
  | keepAlive (fileId : UInt32)
  | lookup (key : String)
  /-- The server goes on. -/
  | serve (a : Action)
deriving DecidableEq

namespace Store

variable (w : Store)

def setSession (session : CallId) (x : Session) (state : SessionState) : Store :=
  { w with sessions := w.sessions.insert session { x with state } }

def setFile (fileName : String) (bytes : List UInt8) : Store :=
  { w with files := w.files.insert fileName bytes }

/-- The server has got there, and the sessions learn which calls have returned. -/
def hear (server : Server) (es : List Event) : Store :=
  { w with
    server
    sessions := w.sessions.map fun session x =>
      { x with state := es.foldl (fun state e => state.receive session e) x.state } }

/-- A step of the server. -/
def serve (a : Action) : Option (Store × List Event) :=
  (w.server.step a).map fun r => (w.hear r.1 r.2, r.2)

/-- The session opens its file and seeks to its offset. -/
def openFile (session : CallId) : Option Store := do
  let x ← w.sessions[session]?
  match x.state with
  | .locked blob =>
    match blob.needsCreation, w.files[blob.fileName]? with
    | true, some _ => some (w.setSession session x .failed)
    | false, none => some (w.setSession session x .failed)
    | _, bytes =>
      let opened := w.setFile blob.fileName (bytes.getD [])
      if blob.byteOffset.toNat ≤ maxFileSize then
        some (opened.setSession session x
          (.writing blob blob.byteOffset.toNat (x.blobs.map (·.bytes))))
      else some (opened.setSession session x .failed)
  | _ => none

/-- The session writes some bytes of the blob it is at, or goes on to the next one. -/
def write (session : CallId) (n : ℕ) : Option Store := do
  let x ← w.sessions[session]?
  match x.state with
  | .writing blob position (bytes :: rest) =>
    if bytes.isEmpty then some (w.setSession session x (.writing blob position rest))
    else if n = 0 then none
    else
      let file ← w.files[blob.fileName]?
      let data := bytes.take n
      if position + data.length ≤ maxFileSize then
        some ((w.setFile blob.fileName (overwrite file position data)).setSession session x
          (.writing blob (position + data.length) (bytes.drop n :: rest)))
      else some (w.setSession session x .failed)
  | _ => none

/-- The session has written all its blobs. -/
def unlock (session : CallId) : Option (Store × List Event) := do
  let x ← w.sessions[session]?
  match x.state with
  | .writing blob _ [] =>
    (w.setSession session x (.unlocking blob w.server.nextCall)).serve
      (.call (.createUnlock blob.fileId x.nodeId))
  | _ => none

def step : Move → Option (Store × List Event)
  | .store blobs nodeId =>
    ({ w with sessions := w.sessions.insert w.server.nextCall ⟨blobs, nodeId, .creating⟩ } :
      Store).serve (.call (.createAndLock (blobEntries blobs) nodeId))
  | .openFile session => (w.openFile session).map fun w' => (w', [])
  | .write session n => (w.write session n).map fun w' => (w', [])
  | .unlock session => w.unlock session
  | .keepAlive fileId => w.serve (.call (.keepAliveLock fileId))
  | .lookup key => w.serve (.call (.lookup key))
  | .serve (.call _) => none
  | .serve a => w.serve a

/-- `read_and_send` reads a slice. -/
def readSlice (slice : BlobStorageSlice) : Option (List UInt8) :=
  (w.files[slice.fileName]?).bind fun file =>
    readExact file slice.byteOffset.toNat slice.numBytes.toNat

/-- A store without sessions and files. -/
def start (config : BlobStorageConfig) : Option Store :=
  (Server.boot config ∅ 0).map fun server => ⟨server, ∅, ∅⟩

end Store

end NpmFollower.BlobIdxClient
