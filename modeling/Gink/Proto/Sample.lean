/-
  Gink.Proto.Sample — a small concrete choice of the libraries underneath.

  Witnesses and counterexamples run the stores on fixed bundles.  Here a bundle's
  bytes are a 64-byte signature and one byte that numbers the message in a list,
  the digest of the bytes ends in that byte, every signature verifies, and nothing
  is encrypted.
-/
import Gink.Proto.BundleInfo

namespace Gink

/-- Libraries under which byte `n` after the signature parses as `messages[n]`. -/
def sampleExternals (messages : List BundleBuilder) : Externals where
  digest data := List.replicate 31 0 ++ [data.getLastD 0]
  length_digest := by simp
  verify _ _ := true
  decrypt _ _ := none
  shorterHash data := Fin.ofNat _ (Bytes.beDecode (data.take 4))
  parseBundle
    | [n] => messages[n.val]?
    | _ => none
  serializeValue _ := [1]
  serializeMuid m := [2, Fin.ofNat _ m.offset.toNat]

/-- The bundle whose message is number `n`. -/
def sampleBundle (n : Byte) : Decomposition := ⟨List.replicate 64 0 ++ [n]⟩

/-- A key of the right length. -/
def sampleKey : Bytes := List.replicate 32 3

/-- The first bundle of the chain `⟨medallion, timestamp⟩`. -/
def startingBundle (timestamp medallion : U64) (changes : List ChangeBuilder) : BundleBuilder where
  identity := "someone"
  verifyKey := sampleKey
  timestamp
  chainStart := timestamp
  medallion
  changes

/-- The bundle after `prior`, which is message number `n`. -/
def followingBundle (timestamp : U64) (n : Byte) (prior : BundleBuilder)
    (changes : List ChangeBuilder) : BundleBuilder where
  timestamp
  chainStart := prior.chainStart
  medallion := prior.medallion
  previous := prior.timestamp
  priorHash := List.replicate 31 0 ++ [n]
  changes

/-- The global container of a behavior, as a message spells it. -/
def globalBuilder (behavior : Behavior) : MuidBuilder := ⟨-1, -1, behavior.code⟩

/-- An entry that puts a text into the global container of its behavior. -/
def sampleEntry (behavior : Behavior) (subject : Option Subject) (text : String) :
    ChangeBuilder :=
  .entry {
    container := some (globalBuilder behavior)
    behavior
    subject
    contains := some (.value (.characters text)) }

end Gink
