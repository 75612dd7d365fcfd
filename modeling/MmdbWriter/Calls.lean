import MmdbWriter.Writer

/-!
# Calls on a writer

The inserts a caller makes, single networks and ranges, and a run of them in a row. An insert's
operation is a function of the existing value.
-/

namespace MmdbWriter

/-- An insert at one network. -/
inductive Insert where
  | value (net : IpNet) (v : Value)
  | withOp (net : IpNet) (f : Option Value → Option Value)
  | merged (net : IpNet) (v : Value) (strategy : MergeStrategy)

/-- A call of one of the insert methods. -/
inductive Call where
  | insert (i : Insert)
  | range (start stop : IpAddr) (v : Value)

namespace Insert

def net : Insert → IpNet
  | value net _ | withOp net _ | merged net _ _ => net

/-- What the insert makes of the existing value of an address. -/
def op : Insert → Option Value → Option Value
  | value _ v => fun _ => some v
  | withOp _ f => f
  | merged _ v strategy => Writer.mergeOp strategy v

variable [Ipnet]

def exec : Insert → Exec Fault Writer Unit
  | value net v => Writer.insertValue net v
  | withOp net f => Writer.insertWithFn net f
  | merged net v strategy => Writer.insertValueMerged net v strategy

end Insert

namespace Writer

variable [Ipnet]

def exec : Call → Exec Fault Writer Unit
  | .insert i => i.exec
  | .range start stop v => insertRange start stop v

/-- A run of calls in a row: their results, and the writer they leave. -/
def run : List Call → Writer → List (Except Fault Unit) × Writer
  | [], w => ([], w)
  | c :: calls, w => ((exec c w).1 :: (run calls (exec c w).2).1, (run calls (exec c w).2).2)

/-- The inserts of a run that were accepted, those that returned `Ok`. -/
def accepted : List Insert → Writer → List Insert
  | [], _ => []
  | i :: inserts, w =>
    if (i.exec w).1 = .ok () then i :: accepted inserts (i.exec w).2
    else accepted inserts (i.exec w).2

/-- The node vector and the value pool are below their `u32` index limit. -/
def InLimits (w : Writer) : Prop :=
  w.tree.nodes.length < 2 ^ 32 ∧ w.pool.values.length < 2 ^ 32

/-- The run stays below the limits. -/
def RunInLimits : List Call → Writer → Prop
  | [], w => w.InLimits
  | c :: calls, w => w.InLimits ∧ RunInLimits calls (exec c w).2

/-- A writer that some run of calls leaves, no call of it a panic. -/
def Reachable (w : Writer) : Prop :=
  ∃ (b : WriterBuilder) (w₀ : Writer) (calls : List Call), b.build = .ok w₀ ∧
    .error .panic ∉ (run calls w₀).1 ∧ w = (run calls w₀).2

end Writer

end MmdbWriter
