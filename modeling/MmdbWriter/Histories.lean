import MmdbWriter.Writer

/-!
# Histories

The trees and the writers that calls of every kind have led to, whatever each call returned: an
operation may keep a state of its own from call to call. An operation answers or panics, and no call
of a history is a panic.
-/

namespace MmdbWriter

/-- The trees that calls of `paint_reserved` and `insert` have led to, for networks of a tree of this
IP version. -/
inductive Tree.Grown (ipVersion : IpVersion) : Tree → Prop
  | new : Grown ipVersion Tree.new
  | paintReserved {t : Tree} (ht : Grown ipVersion t) (bits : BitVec 128) {prefixLen : ℕ}
      (hlen : prefixLen ≤ ipVersion.treeDepth) : Grown ipVersion (paintReserved bits prefixLen t).2
  | insert {t : Tree} (ht : Grown ipVersion t) (bits : BitVec 128) {prefixLen : ℕ}
      (hlen : prefixLen ≤ ipVersion.treeDepth) {σ : Type} (s : σ)
      {op : Option ValueId → Exec Fault σ (Option ValueId)}
      (hop : ∀ {old s e s'}, op old s = (.error e, s') → e = .panic)
      (hres : (insert bits prefixLen op (t, s)).1 ≠ .error .panic) :
      Grown ipVersion (insert bits prefixLen op (t, s)).2.1

/-- The trees that inserts have led to, each of them with a result. -/
inductive Tree.Inserted : Tree → Prop
  | new : Inserted Tree.new
  | insert {t : Tree} (ht : Inserted t) (bits : BitVec 128) {prefixLen : ℕ} (hlen : prefixLen ≤ 128)
      {σ : Type} (s : σ) (op : Option ValueId → Exec Fault σ (Option ValueId))
      (hres : (insert bits prefixLen op (t, s)).1 = .ok ()) :
      Inserted (insert bits prefixLen op (t, s)).2.1

/-- The writers that calls of the insert methods have led to. -/
inductive Writer.Grown [Ipnet] : Writer → Prop
  | build {b : WriterBuilder} {w : Writer} (hb : b.build = .ok w) : Grown w
  | insertValue {w : Writer} (hw : Grown w) (net : IpNet) (v : Value)
      (hres : (insertValue net v w).1 ≠ .error .panic) : Grown (insertValue net v w).2
  | insertWith {w : Writer} (hw : Grown w) (net : IpNet) {τ : Type}
      (op : Option Value → τ → Option Value × τ) (s : τ)
      (hres : (insertWith net op (w, s)).1 ≠ .error .panic) : Grown (insertWith net op (w, s)).2.1
  | insertValueMerged {w : Writer} (hw : Grown w) (net : IpNet) (v : Value)
      (strategy : MergeStrategy) (hres : (insertValueMerged net v strategy w).1 ≠ .error .panic) :
      Grown (insertValueMerged net v strategy w).2
  | insertRange {w : Writer} (hw : Grown w) (start stop : IpAddr) (v : Value)
      (hres : (insertRange start stop v w).1 ≠ .error .panic) :
      Grown (insertRange start stop v w).2

/-- The writers that calls of the insert methods have led to, each of them accepted. -/
inductive Writer.Accepted [Ipnet] : Writer → Prop
  | build {b : WriterBuilder} {w : Writer} (hb : b.build = .ok w) : Accepted w
  | insertValue {w : Writer} (hw : Accepted w) (net : IpNet) (v : Value)
      (hres : (insertValue net v w).1 = .ok ()) : Accepted (insertValue net v w).2
  | insertWith {w : Writer} (hw : Accepted w) (net : IpNet) {τ : Type}
      (op : Option Value → τ → Option Value × τ) (s : τ)
      (hres : (insertWith net op (w, s)).1 = .ok ()) : Accepted (insertWith net op (w, s)).2.1
  | insertValueMerged {w : Writer} (hw : Accepted w) (net : IpNet) (v : Value)
      (strategy : MergeStrategy) (hres : (insertValueMerged net v strategy w).1 = .ok ()) :
      Accepted (insertValueMerged net v strategy w).2
  | insertRange {w : Writer} (hw : Accepted w) (start stop : IpAddr) (v : Value)
      (hres : (insertRange start stop v w).1 = .ok ()) : Accepted (insertRange start stop v w).2

end MmdbWriter
