import Exodus.Model.Coordinator
import Exodus.Model.Http

/-!
# `identity.rs`: the key pair of a node on disk

The file `identity.key` has three lines: the private key, the public key and the node id.
It holds ASCII only, so that a byte of it is a character here.  What the file system does
with a new file, and whether an old one can be read, are answers of the surroundings; so is
the key pair that `generate_key_pair` draws.
-/

set_option autoImplicit false

namespace Exodus.Model

open Exodus.Library

def privateKeyBytes : ℕ := 32

def publicKeyBytes : ℕ := 32

structure IdentityError where
  message : String
deriving DecidableEq

/-- The two arrays of `generate_key_pair`. -/
structure KeyPair where
  privateKey : List UInt8
  publicKey : List UInt8
  private_length : privateKey.length = privateKeyBytes
  public_length : publicKey.length = publicKeyBytes

/-! ## Lines -/

/-- The end of a line may be `\r\n`. -/
def stripCr (line : List Char) : List Char :=
  if line.getLast? = some '\r' then line.dropLast else line

/-- `str::lines` -/
def lines (text : List Char) : List (List Char) :=
  if htext : text = [] then []
  else
    match hrest : text.dropWhile (· ≠ '\n') with
    | [] => [text]
    | _ :: rest => stripCr (text.takeWhile (· ≠ '\n')) :: lines rest
termination_by text.length
decreasing_by
  have hle := (text.dropWhile_suffix (· ≠ '\n')).length_le
  rw [hrest, List.length_cons] at hle
  omega

/-! ## The file -/

section

variable [Crates]

def KeyPair.identity (keys : KeyPair) : NodeIdentity where
  nodeId := nodeIdFromPublicKey keys.publicKey
  privateKey := keys.privateKey
  publicKeyHex := hex keys.publicKey

/-- The text that `create_identity` writes. -/
def NodeIdentity.payload (identity : NodeIdentity) : List Char :=
  (hex identity.privateKey).toList ++ '\n' :: (identity.publicKeyHex.toList ++
    '\n' :: (identity.nodeId.toList ++ ['\n']))

def loadIdentity (text : List Char) : Except IdentityError NodeIdentity :=
  let line i := ((lines text)[i]?).map fun l => String.ofList (trim l)
  match line 0 with
  | none => .error ⟨"malformed identity file"⟩
  | some privateHex =>
    match line 1 with
    | none => .error ⟨"malformed identity file"⟩
    | some publicHex =>
      match hexDecode privateHex with
      | none => .error ⟨"bad private key"⟩
      | some privateKey =>
        match hexDecode publicHex with
        | none => .error ⟨"bad public key"⟩
        | some publicKey =>
          if privateKey.length ≠ privateKeyBytes then .error ⟨"bad private key length"⟩
          else if publicKey.length ≠ publicKeyBytes then .error ⟨"bad public key length"⟩
          else .ok ⟨nodeIdFromPublicKey publicKey, privateKey, publicHex⟩

/-- What becomes of a file that is to be created. -/
inductive Creation where
  /-- the directory or the file cannot be made -/
  | refused (reason : String)
  /-- the write fails, or the process ends, after some characters -/
  | torn (written : ℕ) (reason : String)
  | complete

/-- The file afterwards, and the answer. -/
def createIdentity (keys : KeyPair) : Creation →
    Option (List Char) × Except IdentityError NodeIdentity
  | .refused reason => (none, .error ⟨reason⟩)
  | .torn written reason => (some (keys.identity.payload.take written), .error ⟨reason⟩)
  | .complete => (some keys.identity.payload, .ok keys.identity)

/-- What one start of the node meets. -/
structure Startup where
  keys : KeyPair
  creation : Creation
  unreadable : Option String

def loadOrCreateIdentity (file : Option (List Char)) (s : Startup) :
    Option (List Char) × Except IdentityError NodeIdentity :=
  match file with
  | some text =>
    match s.unreadable with
    | some reason => (some text, .error ⟨reason⟩)
    | none => (some text, loadIdentity text)
  | none => createIdentity s.keys s.creation

/-- The answers of one start after the other. -/
def identityRun : Option (List Char) → List Startup →
    List (Startup × Except IdentityError NodeIdentity)
  | _, [] => []
  | file, s :: rest =>
    let r := loadOrCreateIdentity file s
    (s, r.2) :: identityRun r.1 rest

end

end Exodus.Model
