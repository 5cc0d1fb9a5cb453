import MarkupTemplate.Text.Basic

/-!
The shortest decimal that reads back as a given double. A positive double is `m * 2 ^ q`, and the
reals that round to it form an interval around it; of the decimals in that interval those with the
fewest digits are taken, and of those the nearest.
-/
namespace MarkupTemplate.Decimal

/-- The digits `d₀ d₁ …` stand for `d₀.d₁… * 10 ^ exponent`. -/
structure Scientific where
  digits : Text
  exponent : Int
  deriving DecidableEq

def natText (n : Nat) : Text := Nat.toDigits 10 n

def intText (n : Int) : Text := (if n < 0 then ['-'] else []) ++ natText n.natAbs

def powFraction (b : Nat) (k : Int) : Nat × Nat :=
  if 0 ≤ k then (Nat.pow b k.toNat, 1) else (1, Nat.pow b (-k).toNat)

/-- The value of a positive double and its interval, in quarters of `2 ^ q`. -/
structure Interval where
  low : Nat
  mid : Nat
  high : Nat
  q : Int
  closed : Bool
  deriving DecidableEq

namespace Interval

/-- Below a power of two the doubles lie twice as dense. -/
def ofDouble (m : Nat) (q : Int) (narrow : Bool) : Interval :=
  ⟨4 * m - (if narrow then 1 else 2), 4 * m, 4 * m + 2, q - 2, m % 2 = 0⟩

/-- The exponent of the first digit of the value, which is at least `10 ^ -400`. -/
def leading (i : Interval) : Int :=
  let (num, den) := powFraction 2 i.q
  (natText (i.mid * num * Nat.pow 10 400 / den)).length - 401

/-- The multiple of `10 ^ k` next to the value that is in the interval; an even one breaks a tie. -/
def onGrid? (i : Interval) (k : Int) : Option Nat :=
  let (num, den) := powFraction 2 i.q
  let (gridNum, gridDen) := powFraction 10 k
  let scale := num * gridDen
  let unit := den * gridNum
  let below := i.mid * scale / unit
  let inside (n : Nat) : Bool :=
    if i.closed then i.low * scale ≤ n * unit ∧ n * unit ≤ i.high * scale
    else i.low * scale < n * unit ∧ n * unit < i.high * scale
  let down := i.mid * scale - below * unit
  let up := (below + 1) * unit - i.mid * scale
  match inside below, inside (below + 1) with
  | true, true =>
    some (if down < up then below else if up < down then below + 1 else below + below % 2)
  | true, false => some below
  | false, true => some (below + 1)
  | false, false => none

def shortest (i : Interval) : Scientific :=
  -- Seventeen digits tell all doubles apart.
  let grids := (List.range 17).map fun (n : Nat) => i.leading - n
  match grids.findSome? fun k => (i.onGrid? k).map (·, k) with
  | some (n, k) =>
    let ds := natText n
    ⟨(ds.reverse.dropWhile (· = '0')).reverse, k + ds.length - 1⟩
  | none => ⟨['0'], 0⟩

end Interval

def signBit : Nat := 0x8000000000000000

def hiddenBit : Nat := 0x10000000000000

def ofFloat (x : Float) : Scientific :=
  let bits := x.toBits.toNat % signBit
  let biased : Nat := bits / hiddenBit
  let fraction := bits % hiddenBit
  if bits = 0 then ⟨['0'], 0⟩
  else if biased = 0 then (Interval.ofDouble fraction (-1074) false).shortest
  else
    (Interval.ofDouble (hiddenBit + fraction) (biased - 1075) (fraction = 0 && 1 < biased)).shortest

def zeros (n : Int) : Text := List.replicate n.toNat '0'

/-- From `lowest` to `highest` the exponent of the first digit is not written. -/
structure Style where
  lowest : Int
  highest : Int
  plus : Bool

def exponentText (style : Style) (e : Int) : Text :=
  if style.plus && 0 ≤ e then '+' :: intText e else intText e

def Scientific.text (style : Style) (s : Scientific) : Text :=
  let ds := s.digits
  let e := s.exponent
  if style.lowest ≤ e ∧ e ≤ style.highest then
    if e < 0 then '0' :: '.' :: zeros (-e - 1) ++ ds
    else
      let whole := ds.take (e.toNat + 1) ++ zeros (e + 1 - ds.length)
      let fraction := ds.drop (e.toNat + 1)
      whole ++ '.' :: (if fraction = [] then ['0'] else fraction)
  else
    ds.take 1 ++ (if ds.length ≤ 1 then [] else '.' :: ds.drop 1) ++ 'e' :: exponentText style e

def floatText (style : Style) (x : Float) : Text :=
  (if x.toBits.toNat < signBit then [] else ['-']) ++ (ofFloat x).text style

end MarkupTemplate.Decimal
