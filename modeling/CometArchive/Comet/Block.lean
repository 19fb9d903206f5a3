import CometArchive.Shared.GoError
import CometArchive.Shared.Bytes

set_option autoImplicit false

namespace CometArchive

open GoBytes

inductive Sentinel where
  | objectNotFound
  | objectConflict
  | objectAlreadyExists
  | manifestNotFound
  | segmentBlockNotFound
  | coldBlockNotFound
  | noPeers
  | noPeerForHeight
  | invalidPeerRange
  | contextCanceled
  deriving DecidableEq, Repr

abbrev Err := GoError.Error Sentinel

structure PartSetHeader where
  total : Nat
  hash : Bytes
  deriving DecidableEq, Repr

structure BlockID where
  hash : Bytes
  partSetHeader : PartSetHeader
  deriving DecidableEq, Repr

structure Commit where
  height : Int
  round : Int
  blockID : BlockID
  signatures : List Bytes
  deriving DecidableEq, Repr

/-- A CometBFT block. `body` stands for the header fields and the data that only the library's own
functions read. -/
structure Block where
  chainID : String
  height : Int
  lastBlockID : BlockID
  lastCommitHash : Bytes
  validatorsHash : Bytes
  body : Bytes
  lastCommit : Option Commit
  deriving DecidableEq, Repr

-- the functions of the library that the archive calls; `partSetHeader` stands for `MakePartSet` and `Header`,
-- and marshalling for the protobuf conversions and the encoding after or before them
structure Comet (V : Type) where
  blockHash : Block → Bytes
  commitHash : Commit → Bytes
  partSetHeader : Block → Except Err PartSetHeader
  setHash : V → Bytes
  validateBasic : V → Except Err Unit
  verifyCommit : V → String → BlockID → Int → Commit → Except Err Unit
  marshalBlock : Block → Except Err Bytes
  unmarshalBlock : Bytes → Except Err Block

def Comet.plain : Comet Unit where
  -- the plainest instance: a block's hash is its body, and every commit verifies
  blockHash block := block.body
  commitHash commit := commit.blockID.hash
  partSetHeader block := .ok ⟨1, block.body⟩
  setHash _ := []
  validateBasic _ := .ok ()
  verifyCommit _ _ _ _ _ := .ok ()
  marshalBlock block := .ok block.body
  unmarshalBlock _ := .error (.new "unreadable block")

def Block.plain (height : Int) (previous body : Bytes) : Block where
  -- a block of chain `c` whose commit names the block with hash `previous` one height below
  chainID := "c"
  height
  lastBlockID := ⟨previous, ⟨1, previous⟩⟩
  lastCommitHash := previous
  validatorsHash := []
  body
  lastCommit := some ⟨height - 1, 0, ⟨previous, ⟨1, previous⟩⟩, []⟩

end CometArchive
