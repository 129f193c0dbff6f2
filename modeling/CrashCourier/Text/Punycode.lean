import CrashCourier.Text.Utf8

/-!
# Punycode

How a name of a host is written if it has characters beyond ASCII: first its ASCII characters, then
for each other one, in ascending order, how far it is from the one before in the order of code
points and places, as a number of variable length in base 36.
-/

namespace CrashCourier.Text.Punycode

/-- The character of a digit in base 36. -/
def digit (n : Nat) : Char :=
  if n < 26 then Char.ofNat (n + 97) else Char.ofNat (n + 22)

/-- How far the digits of the next number may go before it ends, by the one before it. -/
def adapt (delta count : Nat) (first : Bool) : Nat :=
  let delta := if first then delta / 700 else delta / 2
  go 16 (delta + delta / count) 0
where
  /-- Scales down while the number is large. -/
  go : Nat → Nat → Nat → Nat
    | 0, delta, k => k + 36 * delta / (delta + 38)
    | fuel + 1, delta, k =>
      if 455 < delta then go fuel (delta / 35) (k + 36) else k + 36 * delta / (delta + 38)

/-- The digits of a number of variable length, from the position `k` on. -/
def digits (bias : Nat) : (fuel : Nat) → (k q : Nat) → List Char
  | 0, _, q => [digit q]
  | fuel + 1, k, q =>
    let t := if k ≤ bias then 1 else if bias + 26 ≤ k then 26 else k - bias
    if q < t then [digit q]
    else digit (t + (q - t) % (36 - t)) :: digits bias fuel (k + 36) ((q - t) / (36 - t))

/-- What is known while a name is written. -/
structure Progress where
  written : List Char
  delta : Nat
  bias : Nat
  /-- How many characters of the name are done. -/
  handled : Nat
  first : Bool

/-- Writes the places of the code point `n`. -/
def place (n : Nat) (p : Progress) (c : Char) : Progress :=
  if c.toNat < n then { p with delta := p.delta + 1 }
  else if c.toNat = n then
    { written := p.written ++ digits p.bias 16 36 p.delta
      delta := 0
      bias := adapt p.delta (p.handled + 1) p.first
      handled := p.handled + 1
      first := false }
  else p

/-- Writes code points in ascending order; `n` is where the order goes on. -/
def points (name : List Char) : (codes : List Nat) → (n : Nat) → Progress → Progress
  | [], _, p => p
  | m :: rest, n, p =>
    let p := { p with delta := p.delta + (m - n) * (p.handled + 1) }
    let p := name.foldl (place m) p
    points name rest (m + 1) { p with delta := p.delta + 1 }

/-- A name with characters beyond ASCII, without the mark in front. -/
def encode (name : List Char) : List Char :=
  let basic := name.filter (·.toNat < 128)
  let codes := ((name.map Char.toNat).filter (128 ≤ ·)).eraseDups.mergeSort
  let start := if basic = [] then [] else basic ++ ['-']
  (points name codes 128 ⟨start, 0, 72, basic.length, true⟩).written

end CrashCourier.Text.Punycode
