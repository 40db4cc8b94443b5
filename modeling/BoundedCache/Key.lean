/-!
# Keys

A key is named by a whole number or by a text, and the two kinds never meet. Two keys are the same
when their identities are, which ignores the case of ASCII letters if the key asks for that; the
spelling is kept beside it and shown again.
-/

namespace BoundedCache

/-- What names a key. -/
inductive KeyName where
  | int (value : Int)
  | text (value : String)
deriving DecidableEq

namespace KeyName

/-- The name with the ASCII letters of a text in lower case. -/
def lower : KeyName → KeyName
  | int value => int value
  | text value => text (value.map Char.toLower)

/-- Numbers come before texts; numbers are ordered by value and texts by code point. -/
protected def compare : KeyName → KeyName → Ordering
  | int left, int right => Ord.compare left right
  | int _, text _ => .lt
  | text _, int _ => .gt
  | text left, text right => Ord.compare left right

end KeyName

/-- A name as it was spelled, with the name it is compared by. -/
structure Key where
  spelling : KeyName
  identity : KeyName

namespace Key

/-- A key that is compared as it is spelled. -/
def exact (name : KeyName) : Key :=
  ⟨name, name⟩

/-- A key that is compared without regard to the case of ASCII letters. -/
def caseless (name : KeyName) : Key :=
  ⟨name, name.lower⟩

instance : BEq Key where
  beq left right := left.identity == right.identity

instance : Ord Key where
  compare left right := left.identity.compare right.identity

theorem beq_iff_identity_eq {left right : Key} :
    (left == right) = true ↔ left.identity = right.identity :=
  show (left.identity == right.identity) = true ↔ _ from beq_iff_eq

instance : EquivBEq Key where
  rfl := beq_iff_identity_eq.2 rfl
  symm same := beq_iff_identity_eq.2 (beq_iff_identity_eq.1 same).symm
  trans first second :=
    beq_iff_identity_eq.2
      ((beq_iff_identity_eq.1 first).trans (beq_iff_identity_eq.1 second))

end Key

/-! ## Hashing schemes -/

/-- How keys are turned into 64-bit hashes. -/
inductive KeyHashing where
  /-- The FNV-1a digest of the identity's bytes. -/
  | fnv
  /-- A number is its own hash; a text is digested. -/
  | identity
  /-- Every key has the same hash. -/
  | constant (digest : UInt64)

namespace KeyHashing

/-- The FNV-1a digest: each byte is mixed in by exclusive or and spread by a multiplication. -/
def fnv1a (bytes : List UInt8) : UInt64 :=
  bytes.foldl (fun digest byte => (digest ^^^ byte.toUInt64) * 0x100000001b3) 0xcbf29ce484222325

/-- The eight bytes of a word, lowest first. -/
def littleEndian (word : UInt64) : List UInt8 :=
  (List.range 8).map fun place => (word >>> (8 * place).toUInt64).toUInt8

/-- The bytes of a name. A text is closed by a byte that no text contains. -/
def nameBytes : KeyName → List UInt8
  | .int value => littleEndian (UInt64.ofInt value)
  | .text value => value.toUTF8.toList ++ [0xff]

def digest (hashing : KeyHashing) (name : KeyName) : UInt64 :=
  match hashing, name with
  | fnv, name => fnv1a (nameBytes name)
  | identity, .int value => UInt64.ofInt value
  | identity, name => fnv1a (nameBytes name)
  | constant digest, _ => digest

/-- Keys hashed by this scheme. Only the identity counts, so equal keys have equal hashes. -/
@[reducible] def hashable (hashing : KeyHashing) : Hashable Key where
  hash key := hashing.digest key.identity

theorem lawfulHashable (hashing : KeyHashing) :
    @LawfulHashable Key _ hashing.hashable :=
  letI := hashing.hashable
  { hash_eq := fun _ _ same =>
      congrArg hashing.digest (Key.beq_iff_identity_eq.1 same) }

end KeyHashing

end BoundedCache
