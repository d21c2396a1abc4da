import Luminix.Backup
import Luminix.CLib.FileBytes
import Luminix.Machine.Reach

/-!
# Storages

The functions of `storage.c`.  A `Kernel` is what the operating system keeps: the files, and the
descriptors with their places in them.  What it is free to do, to give a new descriptor or none and
to move fewer bytes than asked for or none, is an argument of the call.  A program has any number
of storages, on the same files or on others.
-/

namespace Luminix

open CLib Machine

/-! ### The operating system -/

/-- What an open descriptor stands for. -/
structure OpenFile where
  path : CString
  offset : Nat
  deriving DecidableEq

/-- The files and the open descriptors. -/
structure Kernel where
  files : Files
  fds : Nat → Option OpenFile

/-- The most that one `read` or `write` moves. -/
def maxTransfer : Nat := 0x7ffff000

/-- What `size` bytes come to if the kernel moves at most `limit` of them. -/
def transferred (limit size : Nat) : Nat := min limit (min size maxTransfer)

/-- The open descriptor of that number. -/
def Kernel.descriptor (k : Kernel) (fd : Int) : Option OpenFile :=
  if 0 ≤ fd then k.fds fd.toNat else none

/-- The bytes of the file, none if there is no such file. -/
def Kernel.contents (k : Kernel) (path : CString) : List UInt8 := (k.files path).getD []

/-- `open` with `O_RDWR | O_CREAT`: the kernel chooses a descriptor that is free, or fails. -/
def Kernel.openFile (k : Kernel) (path : CString) : (choice : Option Nat) → Int × Kernel
  | none => (-1, k)
  | some n =>
    if (k.fds n).isSome then (-1, k)
    else (n, ⟨Function.update k.files path (some (k.contents path)),
      Function.update k.fds n (some ⟨path, 0⟩)⟩)

/-- `lseek` to a place from the beginning. -/
def Kernel.lseek (k : Kernel) (fd : Int) (offset : Int) : Bool × Kernel :=
  match k.descriptor fd with
  | none => (false, k)
  | some f =>
    if offset < 0 then (false, k)
    else (true, { k with
      fds := Function.update k.fds fd.toNat (some { f with offset := offset.toNat }) })

/-- `read` of up to `size` bytes; the result, and the bytes that are in the buffer. -/
def Kernel.read (k : Kernel) (fd : Int) (size : Nat) (limit : Option Nat) :
    Int × List UInt8 × Kernel :=
  match k.descriptor fd, limit with
  | some f, some limit =>
    let bytes := pread (k.contents f.path) f.offset (transferred limit size)
    (bytes.length, bytes, { k with
      fds := Function.update k.fds fd.toNat
        (some { f with offset := f.offset + bytes.length }) })
  | _, _ => (-1, [], k)

/-- `write` of the bytes, or of the first of them. -/
def Kernel.write (k : Kernel) (fd : Int) (data : List UInt8) (limit : Option Nat) : Int × Kernel :=
  match k.descriptor fd, limit with
  | some f, some limit =>
    let written := data.take (transferred limit data.length)
    (written.length,
      ⟨Function.update k.files f.path (some (pwrite (k.contents f.path) f.offset written)),
        Function.update k.fds fd.toNat (some { f with offset := f.offset + written.length })⟩)
  | _, _ => (-1, k)

/-- `close`. -/
def Kernel.close (k : Kernel) (fd : Int) : Kernel :=
  { k with fds := Function.update k.fds fd.toNat none }

/-! ### The functions of `storage.c` -/

/-- `Storage`. -/
structure Storage where
  path : Option CString
  fd : Int
  size : Nat
  deriving DecidableEq

/-- A storage that `storage_close` has left. -/
def Storage.closed : Storage := ⟨none, -1, 0⟩

/-- `storage_init`; `stat` says whether `fstat` succeeds. -/
def storageInit (k : Kernel) (storage : Storage) (path : Option CString) (choice : Option Nat)
    (stat : Bool) : Int × Storage × Kernel :=
  match path with
  | none => (-1, storage, k)
  | some path =>
    let (fd, k) := k.openFile path choice
    if fd < 0 then (-1, { storage with path := none, fd }, k)
    else (0, ⟨some path, fd, if stat then (k.contents path).length else 0⟩, k)

/-- `storage_read`, and the bytes it has read. -/
def storageRead (k : Kernel) (storage : Storage) (size : Nat) (offset : Int) (limit : Option Nat) :
    Int × List UInt8 × Kernel :=
  if storage.fd < 0 then (-1, [], k)
  else
    match k.lseek storage.fd offset with
    | (false, k) => (-1, [], k)
    | (true, k) => k.read storage.fd size limit

/-- `storage_write`. -/
def storageWrite (k : Kernel) (storage : Storage) (data : List UInt8) (offset : Int)
    (limit : Option Nat) : Int × Storage × Kernel :=
  if storage.fd < 0 then (-1, storage, k)
  else
    match k.lseek storage.fd offset with
    | (false, k) => (-1, storage, k)
    | (true, k) =>
      let (written, k) := k.write storage.fd data limit
      if 0 < written ∧ (storage.size : Int) < offset + written then
        (written, { storage with size := (offset + written).toNat }, k)
      else (written, storage, k)

/-- `storage_close`. -/
def storageClose (k : Kernel) (storage : Storage) : Storage × Kernel :=
  (.closed, if 0 ≤ storage.fd then k.close storage.fd else k)

/-! ### Programs -/

/-- A program with its storages. -/
structure StorageProgram where
  kernel : Kernel
  storages : Nat → Storage

/-- A call on the storage of the number `i`. -/
inductive StorageCall
  | init (i : Nat) (path : Option CString) (choice : Option Nat) (stat : Bool)
  | read (i : Nat) (size : Nat) (offset : Int) (limit : Option Nat)
  | write (i : Nat) (data : List UInt8) (offset : Int) (limit : Option Nat)
  | close (i : Nat)

/-- The state after a call. -/
def StorageProgram.step (s : StorageProgram) : StorageCall → StorageProgram
  | .init i path choice stat =>
    let (_, storage, kernel) := storageInit s.kernel (s.storages i) path choice stat
    ⟨kernel, Function.update s.storages i storage⟩
  | .read i size offset limit =>
    { s with kernel := (storageRead s.kernel (s.storages i) size offset limit).2.2 }
  | .write i data offset limit =>
    let (_, storage, kernel) := storageWrite s.kernel (s.storages i) data offset limit
    ⟨kernel, Function.update s.storages i storage⟩
  | .close i =>
    let (storage, kernel) := storageClose s.kernel (s.storages i)
    ⟨kernel, Function.update s.storages i storage⟩

/-- No storage is open. -/
def StorageProgram.Init (s : StorageProgram) : Prop :=
  (∀ n, s.kernel.fds n = none) ∧ ∀ i, s.storages i = .closed

/-- The states that calls lead to, in any order and on any storages. -/
def StorageProgram.Reachable : StorageProgram → Prop :=
  Reach Init step fun _ _ => True

/-- The bytes that a call writes, with their place and the storage's path. -/
def StorageProgram.written (s : StorageProgram) :
    StorageCall → Option (CString × Nat × List UInt8)
  | .write i data offset limit =>
    let result := (storageWrite s.kernel (s.storages i) data offset limit).1
    if 0 < result then (s.storages i).path.map fun path =>
      (path, offset.toNat, data.take result.toNat)
    else none
  | _ => none

/-- What the calls write into the file of that path, through any storage. -/
def StorageProgram.writes (path : CString) : StorageProgram → List StorageCall →
    List (Nat × List UInt8)
  | _, [] => []
  | s, c :: calls =>
    ((s.written c).toList.filter (·.1 = path)).map Prod.snd ++ writes path (s.step c) calls

end Luminix
