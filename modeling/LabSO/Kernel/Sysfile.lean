import LabSO.Kernel.Directory

/-! The open files of `file.c`, the system calls of `sysfile.c` that change the file system, and what `fork` and `exit` of
    `proc.c` do with the files of a process.

    A system call is given the process that makes it, as it is at the call, and the user memory of the process. -/

namespace LabSO.Kernel
open Program

/-! ### Open files -/

def file (f : Fin NFILE) : FsProg File := liftState fun s => (s.ftable f, s)

def modifyFile (f : Fin NFILE) (g : File → File) : FsProg Unit := liftState fun s => ((), s.setFile f (g (s.ftable f)))

def modifyProc (p : Fin NPROC) (g : FsProc → FsProc) : FsProg Unit :=
  liftState fun s => ((), s.setProc p ((s.proc p).map g))

/-- Allocate a file structure. -/
def filealloc : FsProg (Option (Fin NFILE)) := fun s =>
  match (List.finRange NFILE).find? fun f => (s.ftable f).ref == 0 with
  | some f => (.ok (some f), s.setFile f { s.ftable f with ref := 1 })
  | none => (.ok none, s)

/-- Increment ref count for file `f`. -/
def filedup (f : Fin NFILE) : FsProg Unit := do
  let fp ← file f
  if fp.ref < 1 then halt (.panic "filedup") else modifyFile f fun fp => { fp with ref := fp.ref + 1 }

/-- The major number of the console, which is the device that can be written. -/
def CONSOLE : Int16 := 1

/-- The bytes that `consolewrite` copies, of the `left` after the first `i`. -/
def consolewrite (mem : UserMem) (src : UInt64) (i : Nat) : Nat → Nat
  | 0 => i
  | left + 1 => if (mem.copyin (src + .ofNat i) 1).2 then consolewrite mem src (i + 1) left else i

/-- The bytes that `filewrite` writes at a time, so that they fit a log transaction. -/
def maxWrite : Nat := (MAXOPBLOCKS - 1 - 1 - 2) / 2 * BSIZE

variable (sb : Superblock)

/-- Close file `f`: decrement ref count, close when reaches 0. -/
def fileclose (f : Fin NFILE) : FsProg Unit := do
  let ff ← file f
  if ff.ref < 1 then halt (.panic "fileclose")
  else if ff.ref - 1 > 0 then modifyFile f fun fp => { fp with ref := fp.ref - 1 }
  else do
    modifyFile f fun fp => { fp with ref := 0, type := .none }
    onlyIf (ff.type = .inode ∨ ff.type = .device) do
      onStore beginOp
      iput sb ff.ip
      onStore endOp

/-- The loop of `filewrite` for an inode: the number of bytes written at its end. -/
def filewriteFrom (f : Fin NFILE) (mem : UserMem) (addr : UInt64) (n i : Nat) : FsProg Nat :=
  if i < n then do
    let n1 := min (n - i) maxWrite
    onStore beginOp
    let fp ← file f
    ilock sb fp.ip
    let r ← writei sb fp.ip (.user mem (addr + .ofNat i)) fp.off (.ofNat n1)
    onlyIf (r > 0) (modifyFile f fun fp => { fp with off := fp.off + .ofNat r.toNat })
    iunlock fp.ip
    onStore endOp
    if r ≠ n1 then return i else filewriteFrom f mem addr n (i + n1)
  else return i
termination_by n - i
decreasing_by
  have : 0 < maxWrite := by decide
  omega

/-- What `filewrite` does between a `begin_op` and the next `end_op`: write from the byte `i` on. -/
def filewriteOp (f : Fin NFILE) (mem : UserMem) (addr : UInt64) (n i : Nat) : FsProg Int := do
  let n1 := min (n - i) maxWrite
  let fp ← file f
  ilock sb fp.ip
  let r ← writei sb fp.ip (.user mem (addr + .ofNat i)) fp.off (.ofNat n1)
  onlyIf (r > 0) (modifyFile f fun fp => { fp with off := fp.off + .ofNat r.toNat })
  iunlock fp.ip
  return r

theorem filewriteFrom_eq (f : Fin NFILE) (mem : UserMem) (addr : UInt64) (n i : Nat) :
    filewriteFrom sb f mem addr n i =
      if i < n then do
        onStore beginOp
        let r ← filewriteOp sb f mem addr n i
        onStore endOp
        if r ≠ min (n - i) maxWrite then return i else filewriteFrom sb f mem addr n (i + min (n - i) maxWrite)
      else return i := by
  rw [filewriteFrom]
  simp only [filewriteOp, Prog.bind_assoc]
  rfl

/-- Write to file `f`. -/
def filewrite (f : Fin NFILE) (mem : UserMem) (addr : UInt64) (n : Int32) : FsProg Int := do
  let fp ← file f
  if fp.writable = false then return -1
  else
    match fp.type with
    | .device =>
      if fp.major < 0 ∨ fp.major.toInt ≥ NDEV ∨ fp.major ≠ CONSOLE then return -1
      else return consolewrite mem addr 0 n.toInt.toNat
    | .inode => do
      let i ← filewriteFrom sb f mem addr n.toInt.toNat 0
      return if i = n.toInt then n.toInt else -1
    | .none => halt (.panic "filewrite")

/-! ### File descriptors -/

theorem toNat_lt_NOFILE {fd : Int32} (h : 0 ≤ fd.toInt ∧ fd.toInt < NOFILE) : fd.toInt.toNat < NOFILE := by omega

/-- A system call argument as a file descriptor, with the file. -/
def argfd (pr : FsProc) (fd : Int32) : Option (Fin NOFILE × Fin NFILE) :=
  if h : 0 ≤ fd.toInt ∧ fd.toInt < NOFILE then
    let fd : Fin NOFILE := ⟨fd.toInt.toNat, toNat_lt_NOFILE h⟩
    (pr.ofile fd).map fun f => (fd, f)
  else none

/-- Allocate a file descriptor for the given file. -/
def fdalloc (p : Fin NPROC) (pr : FsProc) (f : Fin NFILE) : FsProg (Option (Fin NOFILE)) :=
  match (List.finRange NOFILE).find? fun fd => (pr.ofile fd).isNone with
  | none => return none
  | some fd => do
    modifyProc p fun pr => { pr with ofile := Function.update pr.ofile fd (some f) }
    return some fd

/-- `p->ofile[fd] = 0`. -/
def clearfd (p : Fin NPROC) (fd : Fin NOFILE) : FsProg Unit :=
  modifyProc p fun pr => { pr with ofile := Function.update pr.ofile fd none }

def sysDup (p : Fin NPROC) (pr : FsProc) (fd : Int32) : FsProg Int :=
  match argfd pr fd with
  | none => return -1
  | some (_, f) => do
    let new ← fdalloc p pr f
    match new with
    | none => return -1
    | some fd => do
      filedup f
      return fd

def sysWrite (pr : FsProc) (mem : UserMem) (fd : Int32) (addr : UInt64) (n : Int32) : FsProg Int :=
  match argfd pr fd with
  | none => return -1
  | some (_, f) => filewrite sb f mem addr n

def sysClose (p : Fin NPROC) (pr : FsProc) (fd : Int32) : FsProg Int :=
  match argfd pr fd with
  | none => return -1
  | some (fd, f) => do
    clearfd p fd
    fileclose sb f
    return 0

/-! ### Links -/

/-- The end of a system call that fails within an operation. -/
def failOp : FsProg Int := do
  onStore endOp
  return -1

/-- What `sys_link` does at the label `bad`. -/
def linkBad (ip : Fin NINODE) : FsProg Int := do
  ilock sb ip
  modifyInode ip fun x => { x with nlink := x.nlink - 1 }
  iupdate sb ip
  iunlockput sb ip
  failOp

/-- Create the path `new` as a link to the same inode as `old`. -/
def sysLink (pr : FsProc) (mem : UserMem) (old new : UInt64) : FsProg Int :=
  match mem.argstr old, mem.argstr new with
  | some old, some new => do
    onStore beginOp
    let found ← namei sb pr.cwd old
    match found with
    | none => failOp
    | some ip => do
      ilock sb ip
      let x ← inode ip
      if x.type = T_DIR then do
        iunlockput sb ip
        failOp
      else do
        modifyInode ip fun x => { x with nlink := x.nlink + 1 }
        iupdate sb ip
        iunlock ip
        let parent ← nameiparent sb pr.cwd new
        match parent with
        | none => linkBad sb ip
        | some (dp, name) => do
          ilock sb dp
          let x ← inode ip
          let r ← dirlink sb dp name x.inum
          if r < 0 then do
            iunlockput sb dp
            linkBad sb ip
          else do
            iunlockput sb dp
            iput sb ip
            onStore endOp
            return 0
  | _, _ => return -1

/-- The names `"."` and `".."`. -/
def dot : List UInt8 := [0x2e]

def dotdot : List UInt8 := [0x2e, 0x2e]

def Dirent.zero : Dirent where
  inum := 0
  name := Vector.replicate _ 0

/-- What `sys_unlink` does at the label `bad`. -/
def unlinkBad (dp : Fin NINODE) : FsProg Int := do
  iunlockput sb dp
  failOp

/-- `ip->type != T_DIR || isdirempty(ip)`. -/
def unlinkable (ip : Fin NINODE) : FsProg Bool := do
  let x ← inode ip
  if x.type = T_DIR then isdirempty sb ip else return true

/-- The part of `sys_unlink` that removes the entry at `off` of `dp`, which names `ip`. -/
def unlinkEntry (dp ip : Fin NINODE) (off : UInt32) : FsProg Int := do
  let r ← writei sb dp (.kernel Dirent.zero.toBytes) off (.ofNat sizeofDirent)
  if r ≠ sizeofDirent then halt (.panic "unlink: writei")
  else do
    let x ← inode ip
    onlyIf (x.type = T_DIR) do
      modifyInode dp fun d => { d with nlink := d.nlink - 1 }
      iupdate sb dp
    iunlockput sb dp
    modifyInode ip fun x => { x with nlink := x.nlink - 1 }
    iupdate sb ip
    iunlockput sb ip
    onStore endOp
    return 0

def sysUnlink (pr : FsProc) (mem : UserMem) (path : UInt64) : FsProg Int :=
  match mem.argstr path with
  | none => return -1
  | some path => do
    onStore beginOp
    let parent ← nameiparent sb pr.cwd path
    match parent with
    | none => failOp
    | some (dp, name) => do
      ilock sb dp
      if namecmp name dot = 0 ∨ namecmp name dotdot = 0 then unlinkBad sb dp
      else do
        let found ← dirlookup sb dp name
        match found with
        | none => unlinkBad sb dp
        | some (ip, off) => do
          ilock sb ip
          let x ← inode ip
          if x.nlink < 1 then halt (.panic "unlink: nlink < 1")
          else do
            let ok ← unlinkable sb ip
            if ok then unlinkEntry sb dp ip off
            else do
              iunlockput sb ip
              unlinkBad sb dp

/-! ### Creation -/

/-- Create `.` and `..` entries. -/
def linkDots (dp ip : Fin NINODE) : FsProg Int := do
  let x ← inode ip
  let r ← dirlink sb ip dot x.inum
  if r < 0 then return -1
  else do
    let d ← inode dp
    dirlink sb ip dotdot d.inum

/-- What `create` does at the label `fail`: something went wrong, de-allocate `ip`. -/
def createFail (dp ip : Fin NINODE) : FsProg (Option (Fin NINODE)) := do
  modifyInode ip fun x => { x with nlink := 0 }
  iupdate sb ip
  iunlockput sb ip
  iunlockput sb dp
  return none

/-- The part of `create` that enters the new inode `ip` into `dp`. -/
def createEntry (dp ip : Fin NINODE) (name : List UInt8) (type : Int16) : FsProg (Option (Fin NINODE)) := do
  let x ← inode ip
  let r ← dirlink sb dp name x.inum
  if r < 0 then createFail sb dp ip
  else do
    onlyIf (type = T_DIR) do
      modifyInode dp fun d => { d with nlink := d.nlink + 1 }
      iupdate sb dp
    iunlockput sb dp
    return some ip

def create (cwd : Fin NINODE) (path : List UInt8) (type major minor : Int16) : FsProg (Option (Fin NINODE)) := do
  let parent ← nameiparent sb cwd path
  match parent with
  | none => return none
  | some (dp, name) => do
    ilock sb dp
    let found ← dirlookup sb dp name
    match found with
    | some (ip, _) => do
      iunlockput sb dp
      ilock sb ip
      let x ← inode ip
      if type = T_FILE ∧ (x.type = T_FILE ∨ x.type = T_DEVICE) then return some ip
      else do
        iunlockput sb ip
        return none
    | none => do
      let new ← ialloc sb type
      match new with
      | none => do
        iunlockput sb dp
        return none
      | some ip => do
        ilock sb ip
        modifyInode ip fun x => { x with major := major, minor := minor, nlink := 1 }
        iupdate sb ip
        if type = T_DIR then do
          let r ← linkDots sb dp ip
          if r < 0 then createFail sb dp ip else createEntry sb dp ip name type
        else createEntry sb dp ip name type

/-! ### Opening -/

def O_RDONLY : Int32 := 0x000

def O_WRONLY : Int32 := 0x001

def O_RDWR : Int32 := 0x002

def O_CREATE : Int32 := 0x200

def O_TRUNC : Int32 := 0x400

/-- The inode that `sys_open` opens, locked; none where it fails. -/
def openInode (cwd : Fin NINODE) (path : List UInt8) (omode : Int32) : FsProg (Option (Fin NINODE)) :=
  if omode &&& O_CREATE ≠ 0 then create sb cwd path T_FILE 0 0
  else do
    let found ← namei sb cwd path
    match found with
    | none => return none
    | some ip => do
      ilock sb ip
      let x ← inode ip
      if x.type = T_DIR ∧ omode ≠ O_RDONLY then do
        iunlockput sb ip
        return none
      else return some ip

/-- What `sys_open` makes of a new file for the inode `x` of the entry `ip`. -/
def File.opened (fp : File) (x : Inode) (ip : Fin NINODE) (omode : Int32) : File where
  type := if x.type = T_DEVICE then .device else .inode
  ref := fp.ref
  readable := decide (omode &&& O_WRONLY = 0)
  writable := decide (omode &&& O_WRONLY ≠ 0 ∨ omode &&& O_RDWR ≠ 0)
  ip := ip
  off := if x.type = T_DEVICE then fp.off else 0
  major := if x.type = T_DEVICE then x.major else fp.major

/-- Where `sys_open` fails with the inode locked. -/
def openFail (ip : Fin NINODE) : FsProg Int := do
  iunlockput sb ip
  failOp

def sysOpen (p : Fin NPROC) (pr : FsProc) (mem : UserMem) (path : UInt64) (omode : Int32) : FsProg Int :=
  match mem.argstr path with
  | none => return -1
  | some path => do
    onStore beginOp
    let found ← openInode sb pr.cwd path omode
    match found with
    | none => failOp
    | some ip => do
      let x ← inode ip
      if x.type = T_DEVICE ∧ (x.major < 0 ∨ x.major.toInt ≥ NDEV) then openFail sb ip
      else do
        let new ← filealloc
        match new with
        | none => openFail sb ip
        | some f => do
          let fd ← fdalloc p pr f
          match fd with
          | none => do
            fileclose sb f
            openFail sb ip
          | some fd => do
            modifyFile f fun fp => fp.opened x ip omode
            onlyIf (omode &&& O_TRUNC ≠ 0 ∧ x.type = T_FILE) (itrunc sb ip)
            iunlock ip
            onStore endOp
            return fd

/-- The end of `sys_mkdir` and `sys_mknod`. -/
def putCreated (new : Option (Fin NINODE)) : FsProg Int :=
  match new with
  | none => failOp
  | some ip => do
    iunlockput sb ip
    onStore endOp
    return 0

def sysMkdir (pr : FsProc) (mem : UserMem) (path : UInt64) : FsProg Int := do
  onStore beginOp
  match mem.argstr path with
  | none => failOp
  | some path => do
    let new ← create sb pr.cwd path T_DIR 0 0
    putCreated sb new

def sysMknod (pr : FsProc) (mem : UserMem) (path : UInt64) (major minor : Int32) : FsProg Int := do
  onStore beginOp
  match mem.argstr path with
  | none => failOp
  | some path => do
    let new ← create sb pr.cwd path T_DEVICE major.toInt16 minor.toInt16
    putCreated sb new

def sysChdir (p : Fin NPROC) (pr : FsProc) (mem : UserMem) (path : UInt64) : FsProg Int := do
  onStore beginOp
  match mem.argstr path with
  | none => failOp
  | some path => do
    let found ← namei sb pr.cwd path
    match found with
    | none => failOp
    | some ip => do
      ilock sb ip
      let x ← inode ip
      if x.type ≠ T_DIR then openFail sb ip
      else do
        iunlock ip
        iput sb pr.cwd
        onStore endOp
        modifyProc p fun pr => { pr with cwd := ip }
        return 0

/-! ### Processes -/

/-- The first process. -/
def initproc : Fin NPROC := ⟨0, NPROC_pos⟩

/-- The files of the child; `np` is the unused slot that `allocproc` finds, none where it finds none or memory is short. -/
def fork (pr : FsProc) (np : Option (Fin NPROC)) : FsProg Unit :=
  match np with
  | none => return ()
  | some np => do
    let child ← liftState fun s => (s.proc np, s)
    onlyIf child.isNone do
      forEach (fun fd =>
        match pr.ofile fd with
        | none => return ()
        | some f => filedup f) (List.finRange NOFILE)
      let cwd ← idup pr.cwd
      liftState fun s => ((), s.setProc np (some { cwd := cwd, ofile := pr.ofile }))

/-- Close all open files, and put the current directory. -/
def exit (p : Fin NPROC) (pr : FsProc) : FsProg Unit :=
  if p = initproc then halt (.panic "init exiting")
  else do
    forEach (fun fd =>
      match pr.ofile fd with
      | none => return ()
      | some f => do
        fileclose sb f
        clearfd p fd) (List.finRange NOFILE)
    onStore beginOp
    iput sb pr.cwd
    onStore endOp
    liftState fun s => ((), s.setProc p none)

/-! ### System calls -/

/-- The system calls that change the file system, and those that hand on files. -/
inductive FsCall
  | open' (path : UInt64) (omode : Int32)
  | write (fd : Int32) (addr : UInt64) (n : Int32)
  | mkdir (path : UInt64)
  | mknod (path : UInt64) (major minor : Int32)
  | link (old new : UInt64)
  | unlink (path : UInt64)
  | chdir (path : UInt64)
  | close (fd : Int32)
  | exit
  | dup (fd : Int32)
  | fork (np : Option (Fin NPROC))

/-- The handlers; return values go to the process and are of no account here. -/
def FsCall.handle (p : Fin NPROC) (pr : FsProc) (mem : UserMem) : FsCall → FsProg Unit
  | open' path omode => do let _ ← sysOpen sb p pr mem path omode
  | write fd addr n => do let _ ← sysWrite sb pr mem fd addr n
  | mkdir path => do let _ ← sysMkdir sb pr mem path
  | mknod path major minor => do let _ ← sysMknod sb pr mem path major minor
  | link old new => do let _ ← sysLink sb pr mem old new
  | unlink path => do let _ ← sysUnlink sb pr mem path
  | chdir path => do let _ ← sysChdir sb p pr mem path
  | close fd => do let _ ← sysClose sb p pr fd
  | exit => Kernel.exit sb p pr
  | dup fd => do let _ ← sysDup p pr fd
  | fork np => Kernel.fork pr np

/-- A system call of a process; one that is not there makes none. -/
structure Request where
  p : Fin NPROC
  mem : UserMem
  call : FsCall

def Request.serve (r : Request) : FsProg Unit := fun s =>
  match s.proc r.p with
  | none => (.ok (), s)
  | some pr => r.call.handle sb r.p pr r.mem s

end LabSO.Kernel
