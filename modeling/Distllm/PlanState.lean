import Distllm.Ranges
import Distllm.While
import Mathlib.Algebra.Field.Rat
import Mathlib.Algebra.Order.Ring.Unbundled.Rat
import Mathlib.Data.List.MinMax

/-! Planning a split, `examples/plan_split.py`: the layers are shared out to the stages in proportion to
the memory that their machines have free, a stage with a fixed count keeps it, and machines with
several stages share their memory between them. Numbers are exact where the code takes floats. -/

namespace Distllm.LayerPlan

open While

/-! ### What a plan is made from -/

inductive Dtype where
  | float32
  | float16
  | bfloat16
  deriving DecidableEq

inductive Quantization where
  | int8
  | nf4
  | fp4
  deriving DecidableEq

/-- `BYTES_PER_PARAM` -/
def Dtype.bytesPerParam : Dtype → ℚ
  | .float32 => 4
  | .float16 => 2
  | .bfloat16 => 2

def Quantization.bytesPerParam : Quantization → ℚ
  | .int8 => 1
  | .nf4 => 53 / 100
  | .fp4 => 53 / 100

/-- `HEADROOM` -/
def headroom : ℚ := 17 / 20

/-- `1e9` -/
def giga : ℚ := 10 ^ 9

structure Node where
  machine : String
  gb : ℚ
  count : Option ℕ
  deriving DecidableEq

/-- The count that a stage is fixed to; zero counts as none. -/
def Node.fixed (node : Node) : Option ℕ := node.count.filter (0 < ·)

/-- The arguments of `plan`. -/
structure Args where
  layers : List ℕ
  embed : ℕ
  head : ℕ
  kvWidth : ℕ
  nodes : List Node
  quantize : Option Quantization
  dtype : Dtype
  context : ℤ

/-- `int` of a number: what is behind the point is cut off. -/
def int (x : ℚ) : ℤ := x.num.tdiv x.den

namespace Args

variable (args : Args)

def weightBytes : ℚ := (args.quantize.map Quantization.bytesPerParam).getD args.dtype.bytesPerParam

/-- Embeddings and `lm_head` are never quantized. -/
def denseBytes : ℚ := args.dtype.bytesPerParam

def kvPerLayer : ℚ := 2 * args.kvWidth * args.context * args.dtype.bytesPerParam

def avgLayer : ℚ := args.layers.sum / args.layers.length * args.weightBytes + args.kvPerLayer

/-- `capacity[machine]`: the machine is given its memory where it is listed first. -/
def capacity (machine : String) : ℚ :=
  ((args.nodes.find? (·.machine == machine)).map fun node => node.gb * giga * headroom).getD 0

/-- `stages_on[machine]` -/
def stagesOn (machine : String) : List ℕ :=
  (List.range args.nodes.length).filter fun i => args.nodes[i]?.any (·.machine == machine)

def fixedCost (i : ℕ) : ℚ :=
  (if i = 0 then args.embed * args.denseBytes else 0)
    + (if i + 1 = args.nodes.length then args.head * args.denseBytes else 0)

/-- The count that the stage is fixed to. -/
def fixed (i : ℕ) : Option ℕ := args.nodes[i]?.bind Node.fixed

/-- The layers that the fixed stages take. -/
def fixedLayers : ℕ := (args.nodes.map fun node => node.fixed.getD 0).sum

def freeLayers : ℤ := args.layers.length - args.fixedLayers

def flexible : List ℕ := (List.range args.nodes.length).filter fun i => (args.fixed i).isNone

/-- The memory of a machine left after fixed costs and fixed stages. -/
def left (machine : String) : ℚ :=
  args.capacity machine - ((args.stagesOn machine).map args.fixedCost).sum
    - ((args.stagesOn machine).map fun i => (args.fixed i).getD 0 * args.avgLayer).sum

/-- Weight of a flexible stage: what its machine has left, shared equally among the machine's flexible
stages. -/
def weight (i : ℕ) : ℚ :=
  match args.nodes[i]? with
  | some node =>
      max (args.left node.machine) 0 / ((args.stagesOn node.machine).filter fun j => (args.fixed j).isNone).length
  | none => 0

def totalWeight : ℚ :=
  let total := (args.flexible.map args.weight).sum
  if total = 0 then 1 else total

def share (i : ℕ) : ℕ := max 1 (int (args.freeLayers * args.weight i / args.totalWeight)).toNat

/-- The counts before they are brought to the number of layers. -/
def counts : List ℕ := (List.range args.nodes.length).map fun i => (args.fixed i).getD (args.share i)

end Args

/-! ### The two loops -/

/-- What Python raises. -/
inductive PyError where
  | zeroDivisionError
  | indexError
  | valueError
  deriving DecidableEq

namespace Args

variable (args : Args)

/-- One layer more for the stage with most spare memory per layer; `max` of no stage is an error. -/
def handOut (counts : List ℕ) : Except PyError (List ℕ) :=
  match args.flexible.argmax fun i => args.weight i / (counts.getD i 0 + 1) with
  | some best => .ok (counts.modify best (· + 1))
  | none => .error .valueError

/-- One layer less for the stage with least memory per layer, among those that keep one. -/
def takeBack (counts : List ℕ) : Except PyError (List ℕ) :=
  match (args.flexible.filter fun i => 1 < counts.getD i 0).argmax fun i =>
      counts.getD i 0 / max (args.weight i) 1 with
  | some worst => .ok (counts.modify worst (· - 1))
  | none => .error .valueError

/-- Layers are left over. -/
def tooFew (counts : List ℕ) : Bool := counts.sum < args.layers.length

/-- More layers are given out than there are. -/
def tooMany (counts : List ℕ) : Bool := args.layers.length < counts.sum

/-- Both loops; each may take as many rounds as are given. -/
def settle (rounds : ℕ) : Option (Except PyError (List ℕ)) :=
  match whileLoop args.tooFew args.handOut rounds args.counts with
  | some (.ok counts) => whileLoop args.tooMany args.takeBack rounds counts
  | failed => failed

end Args

/-! ### `plan` -/

/-- A row of the plan: a machine, the first and the last of its layers, what it uses and what it has in GB. -/
structure Stage where
  machine : String
  first : ℕ
  last : ℕ
  used : ℚ
  gb : ℚ
  deriving DecidableEq

inductive Outcome where
  | returned (stages : List Stage)
  | systemExit (text : String)
  | raised (error : PyError)
  /-- The rounds did not suffice. -/
  | unfinished
  deriving DecidableEq

/-- A number with one digit behind the point, a half rounded to the even digit. -/
def tenths (x : ℚ) : String :=
  let scaled := |x| * 10
  let down := scaled.floor
  let up := 1 / 2 < scaled - down || (scaled - down == 1 / 2 && down % 2 == 1)
  let digits := if up then down + 1 else down
  (if x < 0 then "-" else "") ++ s!"{digits / 10}.{digits % 10}"

namespace Args

variable (args : Args)

/-- The bytes that the stage uses for the layers from `a` to `b`. -/
def used (i a b count : ℕ) : ℚ :=
  args.fixedCost i + ((args.layers.take (b + 1)).drop a).sum * args.weightBytes + count * args.kvPerLayer

/-- The rows from stage `i` on, whose first layer is `start`, each with its bytes. -/
def place (i start : ℕ) : List (Node × ℕ) → List (Stage × ℚ)
  | [] => []
  | (node, count) :: rest =>
      let a := start
      let b := start + count - 1
      let used := args.used i a b count
      (⟨node.machine, a, b, used / giga, node.gb⟩, used) :: place (i + 1) (start + count) rest

def usedBy (placed : List (Stage × ℚ)) (machine : String) : ℚ :=
  ((placed.filter (·.1.machine == machine)).map Prod.snd).sum

/-- The first machine whose stages need more than it has, in the order in which the machines are listed. -/
def overfull (placed : List (Stage × ℚ)) : Option String :=
  (args.nodes.map Node.machine).eraseDups.find? fun machine => args.capacity machine < usedBy placed machine

def refusal (placed : List (Stage × ℚ)) (machine : String) : String :=
  s!"{machine}: needs ~{tenths (usedBy placed machine / giga)} GB, " ++
    s!"has {tenths (args.capacity machine / headroom / giga)} GB " ++
    s!"({int ((1 - headroom) * 100)}% kept as headroom) — add memory/nodes or quantize"

/-- `plan`; each of its loops may take as many rounds as are given. -/
def plan (rounds : ℕ) : Outcome :=
  if args.layers = [] then .raised .zeroDivisionError
  else if args.nodes = [] then .raised .indexError
  else if args.freeLayers < args.flexible.length then
    .systemExit "fixed layer counts leave too few layers for the other stages"
  else
    match args.settle rounds with
    | none => .unfinished
    | some (.error error) => .raised error
    | some (.ok counts) =>
        let placed := args.place 0 0 (args.nodes.zip counts)
        match args.overfull placed with
        | some machine => .systemExit (args.refusal placed machine)
        | none => .returned (placed.map Prod.fst)

end Args

end Distllm.LayerPlan
