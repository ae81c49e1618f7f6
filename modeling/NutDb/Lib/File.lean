/-
  Files, directories and crashes.

  A file has the content that the running program sees, and a set of contents
  that a crash may leave behind:

  * an append may be cut at any byte, together with everything appended since
    the last sync;
  * a write in the middle of the file may leave anything until the next sync;
  * `setLen` is atomic: it has happened or it has not;
  * `sync` makes the content durable.

  Directory operations are atomic and durable in the order in which they are
  issued.  A program is the list of operations it issues, and a crash can come
  after any of them.
-/
import NutDb.Lib.Region

namespace Lib

/-! ## Files -/

/-- A file: what the program sees, and what a crash may leave. -/
structure File where
  bytes : Bytes
  left : Set Bytes

/-- A file whose content is durable. -/
def File.settled (b : Bytes) : File := ⟨b, {b}⟩

/-- Write `x` at offset `o`, filling a gap before it with zeros. -/
def writeAt (b : Bytes) (o : ℕ) (x : Bytes) : Bytes :=
  blit (b ++ List.replicate (o + x.length - b.length) 0) o x

/-- Cut or zero-extend to `n` bytes. -/
def setLen (b : Bytes) (n : ℕ) : Bytes := b.take n ++ List.replicate (n - b.length) 0

theorem At.writeAt_self (b : Bytes) (o : ℕ) (x : Bytes) : At (writeAt b o x) o x :=
  At.blit_self (by simp; omega)

/-- **Frame rule** for writes. -/
theorem At.writeAt_of_disjoint {b x y : Bytes} {o o' : ℕ} (ha : At b o' y) (hy : y ≠ [])
    (hd : o' + y.length ≤ o ∨ o + x.length ≤ o') : At (writeAt b o x) o' y :=
  (ha.append_right hy _).blit_of_disjoint (by simp; omega) hd

theorem setLen_of_le {b : Bytes} {n : ℕ} (h : n ≤ b.length) : setLen b n = b.take n := by
  simp [setLen, Nat.sub_eq_zero_of_le h]

/-- Operations on an open file. -/
inductive FileOp where
  | append (x : Bytes)
  | write (o : ℕ) (x : Bytes)
  | setLen (n : ℕ)
  | sync
  deriving DecidableEq, Repr

/-- The effect of an operation. -/
def FileOp.run : FileOp → File → File
  | append x, f => ⟨f.bytes ++ x, f.left ∪ {c | f.bytes <+: c ∧ c <+: f.bytes ++ x}⟩
  | write o x, f => ⟨writeAt f.bytes o x, Set.univ⟩
  | setLen n, f => ⟨Lib.setLen f.bytes n, f.left ∪ {Lib.setLen f.bytes n}⟩
  | sync, f => File.settled f.bytes

/-! ## Directories -/

/-- The files of a directory. -/
def Disk (N : Type) := N → Option File

/-- Operations on a directory and its files. -/
inductive DiskOp (N : Type) where
  /-- Open a file, creating it if it is not there. -/
  | create (n : N)
  /-- Open a file and empty it, creating it if it is not there. -/
  | truncate (n : N)
  | file (n : N) (op : FileOp)
  | remove (n : N)
  | rename (src dst : N)
  | syncDir
  deriving DecidableEq, Repr

section Disk
variable {N : Type} [DecidableEq N]

/-- The directory with one entry replaced. -/
def Disk.set (d : Disk N) (n : N) (f : Option File) : Disk N := fun m => if m = n then f else d m

/-- The effect of an operation.  Operations on files that are not there do nothing. -/
def DiskOp.run : DiskOp N → Disk N → Disk N
  | create n, d => d.set n (some ((d n).getD (File.settled [])))
  | truncate n, d => d.set n (some ((FileOp.setLen 0).run ((d n).getD (File.settled []))))
  | file n op, d => d.set n ((d n).map op.run)
  | remove n, d => d.set n none
  | rename src dst, d =>
    match d src with
    | some f => (d.set dst (some f)).set src none
    | none => d
  | syncDir, d => d

/-- The effect of a list of operations. -/
def Disk.runOps (d : Disk N) (ops : List (DiskOp N)) : Disk N := ops.foldl (fun d op => op.run d) d

/-- What a crash may leave of a file, if there is one. -/
def CrashedFile : Option File → Option File → Prop
  | none, f' => f' = none
  | some f, f' => ∃ c ∈ f.left, f' = some (File.settled c)

/-- `d'` is a directory that a crash may leave of `d`. -/
def Disk.Crashed (d d' : Disk N) : Prop := ∀ n, CrashedFile (d n) (d' n)

@[simp] theorem Disk.set_self (d : Disk N) (n : N) (f : Option File) : d.set n f n = f := if_pos rfl

theorem Disk.set_other (d : Disk N) {n m : N} (f : Option File) (h : m ≠ n) : d.set n f m = d m :=
  if_neg h

@[simp] theorem Disk.runOps_nil (d : Disk N) : d.runOps [] = d := rfl

@[simp] theorem Disk.runOps_cons (d : Disk N) (op : DiskOp N) (ops : List (DiskOp N)) :
    d.runOps (op :: ops) = (op.run d).runOps ops := rfl

theorem Disk.runOps_append (d : Disk N) (ops₁ ops₂ : List (DiskOp N)) :
    d.runOps (ops₁ ++ ops₂) = (d.runOps ops₁).runOps ops₂ := List.foldl_append

/-- Operations on one file leave the others alone. -/
theorem Disk.runOps_file_other (d : Disk N) {n m : N} (ops : List FileOp) (h : m ≠ n) :
    d.runOps (ops.map (DiskOp.file n)) m = d m := by
  induction ops generalizing d with
  | nil => rfl
  | cons op ops ih =>
    rw [List.map_cons, Disk.runOps_cons, ih]
    exact Disk.set_other d _ h

/-- Operations on one file, seen from that file. -/
theorem Disk.runOps_file_self (d : Disk N) {n : N} (ops : List FileOp) :
    d.runOps (ops.map (DiskOp.file n)) n = (d n).map (ops.foldl fun f op => op.run f) := by
  induction ops generalizing d with
  | nil => simp
  | cons op ops ih =>
    rw [List.map_cons, Disk.runOps_cons, ih]
    simp [DiskOp.run, Function.comp_def]

/-- Operations that leave the directory as it is. -/
theorem Disk.runOps_fixed {d : Disk N} {ops : List (DiskOp N)} (h : ∀ op ∈ ops, op.run d = d) :
    d.runOps ops = d := by
  induction ops with
  | nil => rfl
  | cons op ops ih =>
    rw [Disk.runOps_cons, h op (by simp)]
    exact ih fun op' hop' => h op' (by simp [hop'])

/-- Replacing an entry by itself. -/
theorem Disk.set_same {d : Disk N} {n : N} {f : Option File} (h : d n = f) : d.set n f = d := by
  funext m
  unfold Disk.set
  split_ifs with hm
  · rw [hm, h]
  · rfl

end Disk

end Lib
