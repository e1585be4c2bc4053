import Exodus.Interface.Reference
import Exodus.Model.Validation

/-!
# A sample of keys, claims and blocks

Four nodes with their keys, a few claims, proposals and blocks, with the digests and the
signatures that the real crates give for them.  `crates` has these values and meets the
assumptions of the development; a byte string outside the sample keeps its identity behind
a filler, so no two digests are the same.
-/

set_option autoImplicit false

namespace Exodus.Sample

open Exodus.Library Exodus.Model Exodus.Interface Exodus.Reference

/-! ## Nodes -/

/-- The nodes of the sample. -/
inductive Signer where
  | a | b | c | d
deriving DecidableEq

namespace Signer

/-- The private key: one byte 32 times. -/
def seed : Signer → List UInt8
  | a => List.replicate 32 1
  | b => List.replicate 32 2
  | c => List.replicate 32 3
  | d => List.replicate 32 4

def key : Signer → List UInt8
  | a => bytesBE 32 0x8a88e3dd7409f195fd52db2d3cba5d72ca6709bf1d94121bf3748801b40f6f5c
  | b => bytesBE 32 0x8139770ea87d175f56a35466c34c7ecccb8d8a91b4ee37a25df60f5b8fc9b394
  | c => bytesBE 32 0xed4928c628d1c2c6eae90338905995612959273a5c63f93636c14614ac8737d1
  | d => bytesBE 32 0xca93ac1705187071d67b83c7ff0efe8108e8ec4530575d7726879333dbdabe7c

def nodeId : Signer → String
  | a => "exdgr2q7gf5lh6pzfdnurnkvputhm"
  | b => "exdni4ahvpqlgicuhdnv66jxjdssi"
  | c => "exdwyxim75c6m5p4ywv22ywilqwee"
  | d => "exdyw4ub3j7mxbzdfs55auv7rosl4"

end Signer

open Signer

/-! ## Claims -/

/-- One prompt token of a model with a billion parameters. -/
def work (claimId : String) (owner : Signer) (seq : Int64) (flops : FiniteFloat) (seen : Int64) :
    ContributionClaim where
  claimId
  nodeId := owner.nodeId
  seq
  workType := .textGeneration
  modelId := "m"
  paramsB := ⟨1.0, rfl⟩
  precision := .fp16
  promptTokens := 1
  completionTokens := 0
  computeSeconds := ⟨1.0, rfl⟩
  flopsEstimate := flops
  deviceTier := .cpu
  startedAt := "t0"
  endedAt := "t1"
  lastSeenCheckpointHeight := seen
  lastSeenCheckpointHash := ""

/-- The FLOPS that the work takes. -/
def workFlops : FiniteFloat := ⟨2000000000.0, rfl⟩

/-- A claim with its owner's signature. -/
structure Claim where
  owner : Signer
  claim : ContributionClaim
  signature : ℕ

def Claim.signed (c : Claim) : SignedContribution where
  claim := c.claim
  publicKeyHex := hex c.owner.key
  signatureHex := hex (bytesBE 64 c.signature)

def firstClaim : Claim where
  owner := a
  claim := work "a1" a 1 workFlops 0
  signature :=
    0x5d642160c73e9cd4184bcf57bdacf4039bba92d56dcb9f3b99e31b26107d5709aebadd7850bc2f98da4433edf212af65b5445221fe1e530949a2962344b61502

def secondClaim : Claim where
  owner := a
  claim := work "a2" a 2 workFlops 0
  signature :=
    0x1237c6fdbcd1bdb7b61dbed9649ca6748154c85b68ad8f16816bc7f9abfcf92acf7a26c3ca460e3dd1456292bad6422d176ba2ebe139535ba501537b6f818802

/-- Under another id, with the number of the first claim. -/
def repeatedClaim : Claim where
  owner := a
  claim := work "a3" a 1 workFlops 0
  signature :=
    0x02b872c8e285a7911564240cc73866433c2cff3b8c1c17fdfcb1ddc1af28cd6041b4a1fa42056a8850f50dc73e6532ac209832abb6f7a93068b568e5988ab808

def thirdClaim : Claim where
  owner := a
  claim := work "a4" a 3 workFlops 0
  signature :=
    0x8a5c4bc893b3bbcbc74aa82c27faf0054dd24eb9fcbee3c5817b18feaf94f6619ba6f941e3033b24f474581da71cb46dfeae91e69f66c041ca84a9a7d18ffb0b

def implausibleClaim : Claim where
  owner := b
  claim := work "x" b 1 ⟨1.0, rfl⟩ 0
  signature :=
    0x5780d491ff737be2351d45f77935d6568b7ba4d93c7a8b9dddc4a70db5ba10b35985ae450f58e8625660c5c27ce5ad8bcc84a162e45def378ebf3fa14c000c06

/-- Of a node that has not seen any block. -/
def earlyClaim : Claim where
  owner := a
  claim := work "z" a 1 workFlops (-1)
  signature :=
    0xb187c9a781d6c504ce9776eee147ea2691c7c0716bf53e60f2137b514c4f93489d191c7a550f99b15be928765f3630ea4acffca59d4e2b0876a88966a8a95f09

/-- For a negative time. -/
def debtClaim : Claim where
  owner := a
  claim := { work "d" a 1 workFlops 0 with computeSeconds := ⟨-1000000000000.0, rfl⟩ }
  signature :=
    0x8bc86b1ed0f0b223385a9c6f72f614373018d18d0d1585789091bd41c8ac6fab98f10bda38acdc9ff94a3e8e1c3b9c9cf6e6af9588cc42bf4c20d2b1d484610b

def claims : List Claim :=
  [firstClaim, secondClaim, repeatedClaim, thirdClaim, implausibleClaim, earlyClaim, debtClaim]

/-! ## Proposals and blocks -/

def genesisDigest : ℕ :=
  0x5b13a1aa0c532a262b94df9f9f75fc05cf86e6dc74389c0d22d203a892a794b6

def firstDigest : ℕ :=
  0x529624b352d4c3ca4559b0f7da2b30ff545fd8b97a55963495f8a8958548ebb7

def rivalDigest : ℕ :=
  0x7fa1af9524a1e212a5744326c02ffdef83274839318082cec44395d877356f89

def clashDigest : ℕ :=
  0x825d83dbeeb5606936b3ab79a0bd13aadb0e8e7b34c4bbfc4cf6d8caee6728e9

def usurperDigest : ℕ :=
  0x3b493b5fbb6c73bc878ce896bc35292e864884f962c4d3e09209c10d73ce492a

def lastEpochDigest : ℕ :=
  0xcce44e500dd2bb66d67c9d5c5a5a254eda233d330c3cff3add49f3f598253ea9

def hollowDigest : ℕ :=
  0x3f275b4ed5318a57ccd1f17fd67579463d7940f8cf5f967beb73b5088106c861

def secondDigest : ℕ :=
  0x304529ec8c93cc2882ca78d2820394303c5348b2ffa4de840e3453d4454538dd

def debtDigest : ℕ :=
  0x131e5fc2c52d77925d6391850c66a68cd2f1eebc84863487989639d482131f6d

def genesisBlockDigest : ℕ :=
  0x6b34afe20b26f7d72773c508b27668b01a186498ff5192338e1320ba79835a7b

def firstBlockDigest : ℕ :=
  0xd926ecd15bbc955181068e29ffef43e883955be9a28bd79fb79cac6cfc68f797

def firstBlockBothDigest : ℕ :=
  0x368f6468cd2c763bbfa42fe6dcfc1ed9d8022af358fbe6c4ca04e2e7f21d6bec

def firstBlockThreeDigest : ℕ :=
  0xd2c9abd19761013e301ebbd4c82b1ad435d7719d590a6feeb684ed1cddb848b9

def bareBlockDigest : ℕ :=
  0x747a92bee549e850cf856b1bf7aacdf7f84e8e5145a1cf13d0f00dafb343bddb

def rivalBlockDigest : ℕ :=
  0xa1a29142cac515276dea764f4d473a6cbad52ac89131d0f6f92471636c9687ee

def clashBlockDigest : ℕ :=
  0x71c2f981f245e3f830cc154b46cb018cbbb51b772ea03203577893de09d11b2f

def usurperBlockDigest : ℕ :=
  0x2c7d203a09aabe272edde9e148d8834fe6053cfcd26156b60ecc151534e5bd6b

def lastEpochBlockDigest : ℕ :=
  0xeba4d852ec15ad0b370badf86029edbb1f178b173492759db6f1fc1888858e65

def hollowBlockDigest : ℕ :=
  0x22e79788da4fd02ac8f15a9704625fd48ec433966909fb408d4d23404d912418

def secondBlockDigest : ℕ :=
  0xe50058fa10ef0594259794ffe6273702482bea78b6ad15e75711ec47bb189589

def debtBlockDigest : ℕ :=
  0xb144ac37e8fcb4edce849be470a6dbf3cbd8ab2859340300a527d7a39f36406f

/-- The text of a digest. -/
def digestText (digest : ℕ) : String := hex (bytesBE 32 digest)

def firstProposal : CheckpointProposal where
  epoch := 1
  height := 1
  prevHash := digestText genesisBlockDigest
  sealedBy := b.nodeId
  claims := [firstClaim.signed]
  createdAt := "t1"

/-- For the same height, in the next view. -/
def rivalProposal : CheckpointProposal where
  epoch := 2
  height := 1
  prevHash := digestText genesisBlockDigest
  sealedBy := a.nodeId
  claims := [firstClaim.signed]
  createdAt := "t2"

/-- One node has a sequence number twice, with another one in between. -/
def clashProposal : CheckpointProposal where
  epoch := 1
  height := 1
  prevHash := digestText genesisBlockDigest
  sealedBy := b.nodeId
  claims := [firstClaim.signed, secondClaim.signed, repeatedClaim.signed]
  createdAt := "b0"

/-- For height 0. -/
def usurperProposal : CheckpointProposal where
  epoch := 0
  height := 0
  prevHash := genesisPrevHash
  sealedBy := a.nodeId
  claims := [earlyClaim.signed]
  createdAt := "g1"

/-- The largest epoch. -/
def lastEpochProposal : CheckpointProposal where
  epoch := Int64.maxValue
  height := 1
  prevHash := digestText genesisBlockDigest
  sealedBy := b.nodeId
  claims := [firstClaim.signed]
  createdAt := "top"

/-- Without a claim, on the rival block. -/
def hollowProposal : CheckpointProposal where
  epoch := 3
  height := 2
  prevHash := digestText rivalBlockDigest
  sealedBy := b.nodeId
  claims := []
  createdAt := "inv"

/-- On the first block. -/
def secondProposal : CheckpointProposal where
  epoch := 2
  height := 2
  prevHash := digestText firstBlockDigest
  sealedBy := b.nodeId
  claims := [secondClaim.signed]
  createdAt := "t4"

def debtProposal : CheckpointProposal where
  epoch := 1
  height := 1
  prevHash := digestText genesisBlockDigest
  sealedBy := b.nodeId
  claims := [debtClaim.signed]
  createdAt := "t5"

/-- The signature of a node over a proposal hash. -/
structure Vote where
  signer : Signer
  digest : ℕ
  signature : ℕ

def Vote.signed (v : Vote) : QuorumSignature where
  nodeId := v.signer.nodeId
  publicKeyHex := hex v.signer.key
  signatureHex := hex (bytesBE 64 v.signature)

def firstVote : Vote where
  signer := b
  digest := firstDigest
  signature :=
    0x87ead16a3c0e7401f609b4e6d04192fb48f18faf6f2ee56dd5df96915029fd68c6495d0e21a5126af36a4880acd8d26e44387cdf74b1a131c08ea2052eab8e0b

def firstVoteToo : Vote where
  signer := a
  digest := firstDigest
  signature :=
    0x894ef7b420fa17a53a9a9a942484d5c18fb8994e21ab063215f687cef3bbf03d93e476952c9476f8ae419000d3fc55068ca0bbb09555a0bcbf2c58933db7530f

def firstVoteOfC : Vote where
  signer := c
  digest := firstDigest
  signature :=
    0xc074faf803b1af145b249dcb0a526e1b98c4ed08e6a60abb706521b6a0a584bd23a79023e0cbefd914c59f9aa3cf273f0c2e410911befffab7c80676c19c650d

def rivalVote : Vote where
  signer := a
  digest := rivalDigest
  signature :=
    0x43424bdbb0d7bbe138e20815ce79e20e5edede597ea1fbd547ace95edbae0c585bf142401534a022d219bdb1c824b3f3369c6f234dcb9f8b448e36ae69d9320a

def clashVote : Vote where
  signer := b
  digest := clashDigest
  signature :=
    0x1dfb24cf9cef1b342d111b9176ed9e2339b3b2aa631a6b4b2a4d37af7054b280ebf5fe551e775b9ec442f79054119afb4270077343165d1e85fde65479fa6e0a

def usurperVote : Vote where
  signer := a
  digest := usurperDigest
  signature :=
    0x420fa82ce45a5f42fa9e4bfbff16c6efb947da938317d14494a69c68baa337f18691b2fedcce6d64437099d8fb0b2082a00715a2c8374fc3e5fa480efb1d6f0b

def lastEpochVote : Vote where
  signer := b
  digest := lastEpochDigest
  signature :=
    0x67e4fbe3d74ae2d0f6086b22a9ce41d1238ec9b1b784246947ee7c26ea7443258461564067778b72bcfbae09b36f7f4f9a20239035f07633ec485ae37d62b70f

def secondVote : Vote where
  signer := b
  digest := secondDigest
  signature :=
    0x1c5cc4e5b58b0b1416f6b7aa20f5feb9817ec3cf2443e8941b3872636ea5e7e0e35f5ed884a65cf55e22162f3ffb9e66cde2440622e08e3c5a0a1033b28d8107

def debtVote : Vote where
  signer := b
  digest := debtDigest
  signature :=
    0x303b9ecf8df5577ab1e552a4bbe8753dcedb84a4d6eaa4eb9144d42580389a2c7180c12c0c89daa5a6bfb86484f06050035f3c513a00c0fe0eefce15286e2c09

def votes : List Vote :=
  [firstVote, firstVoteToo, firstVoteOfC, rivalVote, clashVote, usurperVote, lastEpochVote,
    secondVote, debtVote]

def firstBlock : Checkpoint := ⟨firstProposal, [firstVote.signed], 1⟩
def firstBlockBoth : Checkpoint := ⟨firstProposal, [firstVoteToo.signed, firstVote.signed], 1⟩
/-- With the signatures of three nodes, which is a quorum of four. -/
def firstBlockThree : Checkpoint :=
  ⟨firstProposal, [firstVoteToo.signed, firstVote.signed, firstVoteOfC.signed], 3⟩
/-- Without a signature. -/
def bareBlock : Checkpoint := ⟨firstProposal, [], 0⟩
def rivalBlock : Checkpoint := ⟨rivalProposal, [rivalVote.signed], 1⟩
def clashBlock : Checkpoint := ⟨clashProposal, [clashVote.signed], 1⟩
def usurperBlock : Checkpoint := ⟨usurperProposal, [usurperVote.signed], 1⟩
def lastEpochBlock : Checkpoint := ⟨lastEpochProposal, [lastEpochVote.signed], 1⟩
def hollowBlock : Checkpoint := ⟨hollowProposal, [], 1⟩
def secondBlock : Checkpoint := ⟨secondProposal, [secondVote.signed], 1⟩
def debtBlock : Checkpoint := ⟨debtProposal, [debtVote.signed], 1⟩

/-! ## The instance -/

/-- The digests of the sample. -/
def digests : List (Preimage × ℕ) := [
  (.publicKey (key a), 0x34750f98bd59fcfc946da45aaabe933be154a4b5094e1c4abf42866505f3c97e),
  (.publicKey (key b), 0x6a3803d5f059902a1c6dafbc9ba4729212f7caac08634cc3ae76b27529f03827),
  (.publicKey (key c), 0xb62e867fa2f33afe62d5d6b1642e1621d543307846b2a57b897e710919b76709),
  (.publicKey (key d), 0xc5b940ed3f65c391965de8295fc5d25f474fa57b48d36eb10ad363b8539c1b79),
  (.proposal genesisCheckpoint.proposal, genesisDigest),
  (.proposal firstProposal, firstDigest),
  (.proposal rivalProposal, rivalDigest),
  (.proposal clashProposal, clashDigest),
  (.proposal usurperProposal, usurperDigest),
  (.proposal lastEpochProposal, lastEpochDigest),
  (.proposal hollowProposal, hollowDigest),
  (.block (bytesBE 32 genesisDigest) [], genesisBlockDigest),
  (.block (bytesBE 32 firstDigest) firstBlock.signatures, firstBlockDigest),
  (.block (bytesBE 32 firstDigest) firstBlockBoth.signatures, firstBlockBothDigest),
  (.block (bytesBE 32 rivalDigest) rivalBlock.signatures, rivalBlockDigest),
  (.block (bytesBE 32 clashDigest) clashBlock.signatures, clashBlockDigest),
  (.block (bytesBE 32 usurperDigest) usurperBlock.signatures, usurperBlockDigest),
  (.block (bytesBE 32 lastEpochDigest) lastEpochBlock.signatures, lastEpochBlockDigest),
  (.block (bytesBE 32 hollowDigest) hollowBlock.signatures, hollowBlockDigest),
  (.proposal secondProposal, secondDigest),
  (.proposal debtProposal, debtDigest),
  (.block (bytesBE 32 secondDigest) secondBlock.signatures, secondBlockDigest),
  (.block (bytesBE 32 debtDigest) debtBlock.signatures, debtBlockDigest),
  (.block (bytesBE 32 firstDigest) firstBlockThree.signatures, firstBlockThreeDigest),
  (.block (bytesBE 32 firstDigest) bareBlock.signatures, bareBlockDigest)]

def digestTable : List (List UInt8 × List UInt8) :=
  digests.map fun e => (e.1.bytes, bytesBE 32 e.2)

/-- The signatures over proposal hashes, by private key and message. -/
def signTable : List ((List UInt8 × List UInt8) × List UInt8) :=
  votes.map fun v => ((v.signer.seed, asBytes (digestText v.digest)), bytesBE 64 v.signature)

/-- The signature of a message; zeros for a message outside the sample. -/
def signatureOf (seed message : List UInt8) : List UInt8 :=
  (signTable.lookup (seed, message)).getD (List.replicate 64 0)

/-- The key, the message and the signature are of the sample. -/
def verifies (key message signature : List UInt8) : Bool :=
  votes.any (fun v => decide (v.signer.key = key ∧ asBytes (digestText v.digest) = message ∧
      bytesBE 64 v.signature = signature)) ||
    claims.any (fun c => decide (c.owner.key = key ∧ bytesOf c.claim.toValue = message ∧
      bytesBE 64 c.signature = signature)) ||
    [a, b, c, d].any fun s => decide (s.key = key ∧ signatureOf s.seed message = signature)

noncomputable scoped instance crates : Crates where
  sha256 := completed (List.replicate 33 0) digestTable
  verifyingKey seed := (([a, b, c, d].find? fun s => s.seed = seed).map key).getD []
  ed25519Sign := signatureOf
  ed25519Verify := verifies
  ryu := ryu
  jsonToString := textOf
  jsonFromStr := readText
  sqliteSum := List.foldl (· + ·) 0.0

scoped instance : SerdeReadsBack where
  from_to _ hv := readText_textOf hv

scoped instance : RyuReadsBack := ryuReadsBack_of_eq rfl

/-! ## Digests -/

/-- What tells the preimages of the sample apart. -/
def tag : Preimage → ℕ × List UInt8 × String
  | .publicKey key => (0, key, "")
  | .proposal p => (1, [], p.createdAt)
  | .block digest sigs => (2 + sigs.length, digest, "")

/-- No two of the preimages are the same. -/
theorem preimages_nodup : (digests.map Prod.fst).Nodup := by
  have htags : ((digests.map Prod.fst).map tag).Nodup := by decide +kernel
  exact htags.of_map

/-- They are all of the forms that the program hashes. -/
theorem preimages_valid : ∀ x ∈ digests.map Prod.fst, x.Valid := by
  simp only [digests, List.map_cons, List.map_nil, List.forall_mem_cons, List.not_mem_nil,
    false_implies, implies_true, and_true]
  refine ⟨⟨_, _, rfl, by decide⟩, ⟨_, _, rfl, by decide⟩, ⟨_, _, rfl, by decide⟩,
    ⟨_, _, rfl, by decide⟩, ?_⟩
  repeat' constructor

/-- Hence no two of their texts are. -/
theorem digestTable_keys : (digestTable.map Prod.fst).Nodup := by
  have hkeys := preimages_nodup.map_on fun x hx y hy => Preimage.bytes_injOn (preimages_valid x hx)
    (preimages_valid y hy)
  rw [digestTable, List.map_map]
  rwa [List.map_map] at hkeys

/-- No two of the digests are the same either. -/
theorem digestTable_values : (digestTable.map Prod.snd).Nodup := by decide +kernel

/-- So the digest of the sample has no collision. -/
theorem sha256_injective : Sha256CollisionFree := by
  refine completed_injective digestTable_values fun e he => ?_
  obtain ⟨x, -, rfl⟩ := List.mem_map.mp he
  simp

/-- On a preimage of the sample it is the real one. -/
theorem sha256_of_mem {x : Preimage} {d : ℕ} (h : (x, d) ∈ digests) :
    Crates.sha256 x.bytes = bytesBE 32 d :=
  completed_of_mem digestTable_keys (List.mem_map_of_mem (f := fun e => (e.1.bytes, bytesBE 32 e.2)) h)

/-- The canonical bytes can be computed without the digest. -/
theorem canonicalBytes_eq (v : Json) : canonicalBytes v = bytesOf v :=
  congrArg (fun l => asBytes (String.ofList l)) (writeValue_congr (C := crates) (D := layout) rfl v)

/-- The hash of a proposal is the digest in the table. -/
theorem proposalHash_of_mem {p : CheckpointProposal} {d : ℕ} (h : (.proposal p, d) ∈ digests) :
    p.proposalHash = digestText d := by
  have hdigest := sha256_of_mem h
  rw [Preimage.bytes] at hdigest
  rw [CheckpointProposal.proposalHash, sha256Hex, canonicalBytes_eq, hdigest, digestText]

/-- So is the hash of a block. -/
theorem blockHash_of_mem {c : Checkpoint} {d e : ℕ} (hp : c.proposal.proposalHash = digestText d)
    (h : (.block (bytesBE 32 d) c.signatures, e) ∈ digests) : c.blockHash = digestText e := by
  have hdigest := sha256_of_mem h
  rw [Preimage.bytes, Preimage.signaturesText, asBytes_append] at hdigest
  rw [Checkpoint.blockHash, sha256BytesHex, hp, canonicalBytes_eq, Checkpoint.signaturesValue,
    bytesOf, digestText, hdigest, digestText]

/-- The hash of genesis as a proposal. -/
theorem genesis_proposalHash : genesisCheckpoint.proposal.proposalHash = digestText genesisDigest :=
  proposalHash_of_mem (List.mem_of_getElem? (i := 4) rfl)

/-- The hash of the first proposal. -/
theorem first_proposalHash : firstProposal.proposalHash = digestText firstDigest :=
  proposalHash_of_mem (List.mem_of_getElem? (i := 5) rfl)

/-- The hash of the rival one. -/
theorem rival_proposalHash : rivalProposal.proposalHash = digestText rivalDigest :=
  proposalHash_of_mem (List.mem_of_getElem? (i := 6) rfl)

/-- The hash of the one with a number twice. -/
theorem clash_proposalHash : clashProposal.proposalHash = digestText clashDigest :=
  proposalHash_of_mem (List.mem_of_getElem? (i := 7) rfl)

/-- The hash of the one for height 0. -/
theorem usurper_proposalHash : usurperProposal.proposalHash = digestText usurperDigest :=
  proposalHash_of_mem (List.mem_of_getElem? (i := 8) rfl)

/-- The hash of the one of the last epoch. -/
theorem lastEpoch_proposalHash : lastEpochProposal.proposalHash = digestText lastEpochDigest :=
  proposalHash_of_mem (List.mem_of_getElem? (i := 9) rfl)

/-- The hash of the one on the first block. -/
theorem second_proposalHash : secondProposal.proposalHash = digestText secondDigest :=
  proposalHash_of_mem (List.mem_of_getElem? (i := 19) rfl)

/-- The hash of the one with the negative time. -/
theorem debt_proposalHash : debtProposal.proposalHash = digestText debtDigest :=
  proposalHash_of_mem (List.mem_of_getElem? (i := 20) rfl)

/-- The hash of genesis. -/
theorem genesis_blockHash : genesisCheckpoint.blockHash = digestText genesisBlockDigest :=
  blockHash_of_mem genesis_proposalHash (List.mem_of_getElem? (i := 11) rfl)

/-- The hash of the first block. -/
theorem first_blockHash : firstBlock.blockHash = digestText firstBlockDigest :=
  blockHash_of_mem first_proposalHash (List.mem_of_getElem? (i := 12) rfl)

/-- The hash of the rival one. -/
theorem rival_blockHash : rivalBlock.blockHash = digestText rivalBlockDigest :=
  blockHash_of_mem rival_proposalHash (List.mem_of_getElem? (i := 14) rfl)

/-- The hash of the first block without signatures. -/
theorem bare_blockHash : bareBlock.blockHash = digestText bareBlockDigest :=
  blockHash_of_mem first_proposalHash (List.mem_of_getElem? (i := 24) rfl)

/-- The hash of the block with a number twice. -/
theorem clash_blockHash : clashBlock.blockHash = digestText clashBlockDigest :=
  blockHash_of_mem clash_proposalHash (List.mem_of_getElem? (i := 15) rfl)

/-- The hash of the block for height 0. -/
theorem usurper_blockHash : usurperBlock.blockHash = digestText usurperBlockDigest :=
  blockHash_of_mem usurper_proposalHash (List.mem_of_getElem? (i := 16) rfl)

/-- Blocks with different times of their proposals have different hashes. -/
theorem blockHash_ne {c d : Checkpoint} (h : c.proposal.createdAt ≠ d.proposal.createdAt) :
    c.blockHash ≠ d.blockHash := fun heq =>
  h (congrArg CheckpointProposal.createdAt (blockHash_injective sha256_injective heq).1)

/-! ## Keys and signatures -/

/-- The digest of the key of `a`. -/
theorem sha256_key_a : Crates.sha256 (key a) = bytesBE 32
    0x34750f98bd59fcfc946da45aaabe933be154a4b5094e1c4abf42866505f3c97e :=
  sha256_of_mem (x := .publicKey (key a)) (List.mem_of_getElem? (i := 0) rfl)

/-- The digest of the key of `b`. -/
theorem sha256_key_b : Crates.sha256 (key b) = bytesBE 32
    0x6a3803d5f059902a1c6dafbc9ba4729212f7caac08634cc3ae76b27529f03827 :=
  sha256_of_mem (x := .publicKey (key b)) (List.mem_of_getElem? (i := 1) rfl)

/-- The digest of the key of `c`. -/
theorem sha256_key_c : Crates.sha256 (key c) = bytesBE 32
    0xb62e867fa2f33afe62d5d6b1642e1621d543307846b2a57b897e710919b76709 :=
  sha256_of_mem (x := .publicKey (key c)) (List.mem_of_getElem? (i := 2) rfl)

/-- The digest of the key of `d`. -/
theorem sha256_key_d : Crates.sha256 (key d) = bytesBE 32
    0xc5b940ed3f65c391965de8295fc5d25f474fa57b48d36eb10ad363b8539c1b79 :=
  sha256_of_mem (x := .publicKey (key d)) (List.mem_of_getElem? (i := 3) rfl)

/-- The node ids of the sample are those of the keys. -/
theorem nodeId_key (s : Signer) : nodeIdFromPublicKey s.key = s.nodeId := by
  rw [nodeIdFromPublicKey, ← String.toList_inj, String.toList_append, base32NoPad,
    String.toList_map, String.toList_ofList]
  cases s with
  | a =>
    rw [sha256_key_a]
    decide +kernel
  | b =>
    rw [sha256_key_b]
    decide +kernel
  | c =>
    rw [sha256_key_c]
    decide +kernel
  | d =>
    rw [sha256_key_d]
    decide +kernel

/-- The nodes have different ids. -/
theorem nodeId_injective : Function.Injective Signer.nodeId := by
  intro s t h
  cases s <;> cases t <;> first | rfl | exact absurd h (by decide)

/-- A key has 32 bytes. -/
theorem length_key (s : Signer) : s.key.length = 32 := by
  cases s <;> exact length_bytesBE 32 _

/-- The claims of the sample verify. -/
theorem Claim.verify {c : Claim} (hc : c ∈ claims) (hid : c.claim.nodeId = c.owner.nodeId) :
    c.signed.verify = true := by
  have hsample : verifies c.owner.key (bytesOf c.claim.toValue) (bytesBE 64 c.signature) = true := by
    rw [verifies, Bool.or_eq_true, Bool.or_eq_true]
    exact .inl (.inr (List.any_eq_true.mpr ⟨c, hc, by simp⟩))
  simp only [SignedContribution.verify, Claim.signed, hexDecode_hex, nodeId_key, hid, ne_eq,
    not_true_eq_false, if_false, Model.verify, length_key, length_bytesBE,
    ContributionClaim.payloadBytes, canonicalBytes_eq, beq_self_eq_true, Bool.true_and]
  exact hsample

/-- The signatures over proposal hashes do. -/
theorem Vote.verify {v : Vote} (hv : v ∈ votes) :
    Model.verify (asBytes (digestText v.digest)) (bytesBE 64 v.signature) v.signer.key = true := by
  have hsample : verifies v.signer.key (asBytes (digestText v.digest)) (bytesBE 64 v.signature) =
      true := by
    rw [verifies, Bool.or_eq_true, Bool.or_eq_true]
    exact .inl (.inl (List.any_eq_true.mpr ⟨v, hv, by simp⟩))
  simp only [Model.verify, length_key, length_bytesBE, beq_self_eq_true, Bool.true_and]
  exact hsample

/-- They do in the form in which a block carries them. -/
theorem Vote.verifies_signed {v : Vote} (hv : v ∈ votes) :
    verifyShareForProposal v.signed.signatureHex v.signed.publicKeyHex (digestText v.digest) =
      true := by
  simp only [verifyShareForProposal, Vote.signed, hexDecode_hex]
  exact v.verify hv

/-- Nobody signs one proposal twice. -/
theorem signTable_keys : (signTable.map Prod.fst).Nodup := by
  have hpairs : (votes.map fun v => (v.signer, v.digest)).Nodup := by decide +kernel
  have hfit : ∀ v ∈ votes, v.digest < 256 ^ 32 := by decide +kernel
  have hseed {s t : Signer} (h : s.seed = t.seed) : s = t := by
    cases s <;> cases t <;> first | rfl | exact absurd h (by decide)
  rw [signTable, List.map_map]
  refine (hpairs.of_map _).map_on fun v hv w hw h => ?_
  obtain ⟨hsigner, hmessage⟩ := Prod.mk.inj h
  have hdigest : v.digest = w.digest :=
    bytesBE_injOn (hfit v hv) (hfit w hw) (hex_injective (asBytes_injective hmessage))
  exact List.inj_on_of_nodup_map hpairs hv hw (Prod.ext (hseed hsigner) hdigest)

/-- What a node of the sample signs is what the sample has. -/
theorem Vote.sign_eq {v : Vote} (hv : v ∈ votes) :
    sign (asBytes (digestText v.digest)) v.signer.seed = bytesBE 64 v.signature := by
  have hseed : v.signer.seed.take 32 = v.signer.seed := by
    cases v.signer <;> rfl
  rw [sign, hseed]
  show (signTable.lookup (v.signer.seed, asBytes (digestText v.digest))).getD _ = _
  rw [lookup_of_mem signTable_keys (List.mem_map_of_mem hv)]
  rfl

/-- A signature has 64 bytes. -/
theorem length_signatureOf (seed message : List UInt8) : (signatureOf seed message).length = 64 := by
  unfold signatureOf
  cases h : signTable.lookup (seed, message) with
  | none => rfl
  | some signature =>
    obtain ⟨v, -, hv⟩ := List.mem_map.mp (mem_of_lookup h)
    rw [← (Prod.mk.inj hv).2]
    exact length_bytesBE 64 _

/-- The key of a node verifies whatever the node signs. -/
theorem verify_sign (s : Signer) (message : List UInt8) :
    Model.verify message (sign message s.seed) s.key = true := by
  have hseed : s.seed.take 32 = s.seed := by
    cases s <;> rfl
  have hsample : verifies s.key message (signatureOf s.seed message) = true := by
    rw [verifies, Bool.or_eq_true]
    refine .inr (List.any_eq_true.mpr ⟨s, ?_, by simp⟩)
    cases s <;> simp
  have hlength := length_signatureOf s.seed message
  rw [sign, hseed]
  simp only [Model.verify, length_key, beq_self_eq_true, Bool.true_and]
  show ((signatureOf s.seed message).length == 64 &&
    verifies s.key message (signatureOf s.seed message)) = true
  rw [hsample, hlength]
  rfl

end Exodus.Sample
