import Luminix.CLib.Integer
import Mathlib.Logic.Function.Basic

/-!
# Backups

`backup_create` and `backup_restore` of `backup.c`, over the contents of files by their paths.
`CopyIo` is what the calls of the C library return: a call of `fread` or `fwrite` transfers no more
bytes than it is asked for, and fewer after an error.  Two things are left out: what `fclose` of the
destination returns, which `copy_file` does not look at, and files that have more than one path.
-/

namespace Luminix

open CLib

/-- The contents of the files that there are. -/
abbrev Files : Type := CString → Option (List UInt8)

/-- What becomes of the calls of one copy, each counted from zero. -/
structure CopyIo where
  /-- Whether a source that is there can be opened. -/
  opensSource : Bool
  /-- Whether the destination can be opened. -/
  opensDest : Bool
  /-- How many bytes a call of `fread` transfers at most. -/
  reads : Nat → Nat
  /-- How many bytes a call of `fwrite` transfers at most. -/
  writes : Nat → Nat

/-- `struct tm`, as far as it is printed. -/
structure Tm where
  year : Int
  mon : Int
  mday : Int
  hour : Int
  min : Int
  sec : Int

/-- The size of the buffer of `copy_file`. -/
def copyBufferSize : Nat := 4096

/-- What call `i` of `fread` returns when `n` bytes of the source are left. -/
def CopyIo.read (io : CopyIo) (i n : Nat) : Nat := min (io.reads i) (min copyBufferSize n)

/-- The loop of `copy_file`, from call `i` on: what is left of the source, and what has been
written. -/
def copyLoop (io : CopyIo) : (fuel : Nat) → (i : Nat) → (src dest : List UInt8) → List UInt8
  | 0, _, _, dest => dest
  | fuel + 1, i, src, dest =>
    let bytes := io.read i src.length
    if 0 < bytes then
      copyLoop io fuel (i + 1) (src.drop bytes) (dest ++ (src.take bytes).take (io.writes i))
    else dest

/-- `copy_file`.  The destination is empty once it has been opened, also if it is the source. -/
def copyFile (io : CopyIo) (files : Files) (srcPath destPath : CString) : Int × Files :=
  if (files srcPath).isSome = true ∧ io.opensSource = true then
    if io.opensDest then
      let opened : Files := Function.update files destPath (some [])
      let src := (opened srcPath).getD []
      (0, Function.update opened destPath (some (copyLoop io (src.length + 1) 0 src [])))
    else (-1, files)
  else (-1, files)

/-- What `printf` prints for `%0nd`. -/
def zeroPadded (width : Nat) (n : Int) : List UInt8 :=
  let sign : List UInt8 := if n < 0 then [45] else []
  sign ++ List.replicate (width - sign.length - (natDecimal n.natAbs).length) 48 ++
    natDecimal n.natAbs

/-- The path of a backup, as far as it fits in 512 bytes. -/
def backupPath (t : Tm) (backupDir : CString) : CString :=
  CString.ofBytes ((backupDir.bytes ++ ascii "/backup_" ++ zeroPadded 4 (t.year + 1900) ++
    zeroPadded 2 (t.mon + 1) ++ zeroPadded 2 t.mday ++ ascii "_" ++ zeroPadded 2 t.hour ++
    zeroPadded 2 t.min ++ zeroPadded 2 t.sec ++ ascii ".db").take 511)

/-- `backup_create`, at a time `t`. -/
def backupCreate (io : CopyIo) (t : Tm) (files : Files) (sourcePath backupDir : Option CString) :
    Int × Files :=
  match sourcePath, backupDir with
  | some sourcePath, some backupDir =>
    let res := copyFile io files sourcePath (backupPath t backupDir)
    if res.1 = 0 then (0, res.2) else (-1, res.2)
  | _, _ => (-1, files)

/-- `backup_restore`. -/
def backupRestore (io : CopyIo) (files : Files) (backupPath targetPath : Option CString) :
    Int × Files :=
  match backupPath, targetPath with
  | some backupPath, some targetPath =>
    let res := copyFile io files backupPath targetPath
    if res.1 = 0 then (0, res.2) else (-1, res.2)
  | _, _ => (-1, files)

end Luminix
