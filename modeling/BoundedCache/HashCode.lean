/-!
# Hash codes

Tables work on 32-bit hash codes. A key's 64-bit hash is folded to 32 bits and then spread, which
defends against hashes that differ in a few bits only. A table that looks at a few bits of the
code needs the strong spread `avalanche`; one that takes a remainder uses the cheaper `shiftXor`.
-/

namespace BoundedCache.HashCode

/-- Folds the upper half of a hash onto its lower half. -/
def fold (digest : UInt64) : UInt32 :=
  (digest ^^^ (digest >>> 32)).toUInt32

/-- The folded hash of a key. -/
def ofKey {κ : Type} [Hashable κ] (key : κ) : UInt32 :=
  fold (hash key)

/-- Lets every bit of the code reach its upper and its lower end. -/
def avalanche (code : UInt32) : UInt32 :=
  let code := code + ((code <<< 15) ^^^ 0xffffcd7d)
  let code := code ^^^ (code >>> 10)
  let code := code + (code <<< 3)
  let code := code ^^^ (code >>> 6)
  let code := code + ((code <<< 2) + (code <<< 14))
  code ^^^ (code >>> 16)

/-- Bounds the collisions of codes that differ only by constant multiples at each bit. -/
def shiftXor (code : UInt32) : UInt32 :=
  let code := code ^^^ ((code >>> 20) ^^^ (code >>> 12))
  code ^^^ (code >>> 7) ^^^ (code >>> 4)

/-- The code of a key for tables that select by single bits. -/
def avalanched {κ : Type} [Hashable κ] (key : κ) : UInt32 :=
  avalanche (ofKey key)

/-- The code of a key for tables that select by remainder. -/
def shifted {κ : Type} [Hashable κ] (key : κ) : UInt32 :=
  shiftXor (ofKey key)

/-- Eight hexadecimal digits after the mark `0x`. -/
def hex (code : UInt32) : String :=
  let digits := Nat.toDigits 16 code.toNat
  "0x" ++ String.ofList (List.replicate (8 - digits.length) '0' ++ digits)

end BoundedCache.HashCode
