import GraphClustering.Fault

/-! # Start vectors from a seed

A seed is spread over a pool of four words; the pool seeds a linear congruential generator with
128 bits of state, whose output is folded to 64 bits and rotated. -/

namespace GraphClustering.StartVector

/-- The words of 32 bits of a number, low words first. -/
def words (n : Nat) : List UInt32 :=
  if _ : n < Nat.pow 2 32 then [UInt32.ofNat n]
  else UInt32.ofNat (n % Nat.pow 2 32) :: words (n / Nat.pow 2 32)
termination_by n
decreasing_by
  rename_i h
  exact Nat.div_lt_self (Nat.lt_of_lt_of_le (by decide) (Nat.le_of_not_lt h)) (by decide)

/-- A word mixed with the running constant, which moves on. -/
def hashMix (factor : UInt32) (h v : UInt32) : UInt32 × UInt32 :=
  let v := v ^^^ h
  let h := h * factor
  let v := v * h
  (h, v ^^^ (v >>> 16))

def mix (x y : UInt32) : UInt32 :=
  let r := 0xca01f9dd * x - 0x4973f715 * y
  r ^^^ (r >>> 16)

structure Pool where
  constant : UInt32
  words : List UInt32

def Pool.hash (p : Pool) (v : UInt32) : Pool × UInt32 :=
  let r := hashMix 0x931e8875 p.constant v
  (⟨r.1, p.words⟩, r.2)

/-- Mixes the hash of a value into one word of the pool. -/
def Pool.stir (p : Pool) (place : Nat) (value : UInt32) : Pool :=
  let r := p.hash value
  ⟨r.1.constant, r.1.words.modify place fun w => mix w r.2⟩

/-- The pool filled from the first four words of the seed. -/
def Pool.fill (seed : List UInt32) : Pool :=
  (List.range 4).foldl (fun p i =>
    let r := p.hash (seed.getD i 0)
    ⟨r.1.constant, r.1.words ++ [r.2]⟩) ⟨0x43b0d7e5, []⟩

/-- Mixes every word of the pool into every other one. -/
def Pool.spread (p : Pool) : Pool :=
  (List.range 4).foldl (fun p s => (List.range 4).foldl (fun p d =>
    if s = d then p else p.stir d (p.words.getD s 0)) p) p

/-- Mixes the further words of the seed into every word of the pool. -/
def Pool.absorb (p : Pool) (seed : List UInt32) : Pool :=
  (seed.drop 4).foldl (fun p w => (List.range 4).foldl (fun p d => p.stir d w) p) p

def pool (seed : Nat) : List UInt32 :=
  let ws := words seed
  (((Pool.fill ws).spread).absorb ws).words

/-- Eight words drawn from a pool. -/
def draw (pool : List UInt32) : List UInt32 :=
  ((List.range 8).foldl (fun (acc : UInt32 × List UInt32) i =>
    let r := hashMix 0x58f38ded acc.1 (pool.getD (i % 4) 0)
    (r.1, acc.2 ++ [r.2])) (0x8b51f9dd, [])).2

/-- Pairs of words as numbers of 64 bits, low words first. -/
def pairs : List UInt32 → List Nat
  | a :: b :: rest => (a.toNat + Nat.pow 2 32 * b.toNat) :: pairs rest
  | _ => []

/-- The state of the generator and its increment. -/
structure Generator where
  state : Nat
  increment : Nat

def multiplier : Nat := 0x2360ed051fc65da44385df649fccf645

def Generator.step (g : Generator) : Generator :=
  ⟨(g.state * multiplier + g.increment) % Nat.pow 2 128, g.increment⟩

def Generator.ofSeed (seed : Nat) : Generator :=
  match pairs (draw (pool seed)) with
  | [a, b, c, d] =>
      let g := Generator.step ⟨0, ((c * Nat.pow 2 64 + d) * 2 + 1) % Nat.pow 2 128⟩
      Generator.step ⟨(g.state + a * Nat.pow 2 64 + b) % Nat.pow 2 128, g.increment⟩
  | _ => ⟨0, 1⟩

def rotateRight (x k : Nat) : Nat :=
  x >>> k ||| (x <<< (64 - k)) % Nat.pow 2 64

/-- The output of a state: its halves folded together and rotated by its highest bits. -/
def Generator.output (g : Generator) : Nat :=
  rotateRight ((g.state / Nat.pow 2 64) ^^^ (g.state % Nat.pow 2 64)) (g.state / Nat.pow 2 122)

/-- A number from `-1` up to `1` by the highest 53 bits. -/
def uniform (x : Nat) : Float :=
  -1.0 + 2.0 * Decimal.nearest false ⟨x / Nat.pow 2 11, Nat.pow 2 53⟩

def sample (g : Generator) : Nat → List Float
  | 0 => []
  | n + 1 =>
      let g := g.step
      uniform g.output :: sample g n

/-- `n` numbers from `-1` up to `1`. The seed is a whole number, not negative. -/
def ofSeed (seed : Option Number) (n : Nat) : Except Fault (List Float) :=
  match seed.bind Number.toInt? with
  | none => .error .notNumeric
  | some z => if z < 0 then .error .negativeSeed else .ok (sample (.ofSeed z.toNat) n)

end GraphClustering.StartVector
