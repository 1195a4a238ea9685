/-
# Open files

`file.c` and the two functions of `pipe.c` that make and unmake pipes, for any number of processes.
What runs under `ftable.lock` or `pi->lock` is one step, and between two steps the other processes
run.  A call of the page allocator is one step here too, as it is when nobody else is in the
allocator meanwhile; `FileWindow` divides these calls.

A process refers to a file by handles.  What a file itself refers to, an inode or one end of a
pipe, is given back by the process that closes its last handle, after `ftable.lock` is released.
-/
import Lithium.Fs.Pipe
import Lithium.Mem.Physmem
import Mathlib.Data.List.Count
import Mathlib.Data.List.FinRange

namespace Lithium

/-! ## 1. Data -/

/-- `NFILE`. -/
abbrev nfile : Nat := 100

/-- `FD_NONE`, `FD_PIPE`, `FD_INODE` and `FD_DEVICE`. -/
inductive FileType where
  | none
  | pipe
  | inode
  | device
  deriving DecidableEq

/-- A `struct pipe *`.  The serial number tells the pipes apart that one page holds in turn. -/
structure PipeRef where
  page : Word
  serial : Nat
  deriving DecidableEq

/-- A `struct inode *`.  The serial number tells the references to one inode apart. -/
structure InodeRef where
  ip : Nat
  serial : Nat
  deriving DecidableEq

/-- What a file may refer to. -/
inductive Target where
  | pipeEnd (q : PipeRef) (writable : Bool)
  | inode (r : InodeRef)
  deriving DecidableEq

/-- `struct file`, without the fields that only `file_read` and `file_write` use.  `ref` counts
without bound. -/
structure File where
  type : FileType
  ref : Nat
  readable : Bool
  writable : Bool
  pipe : PipeRef
  ip : InodeRef

/-- An entry of the zeroed `.bss`. -/
def File.zero : File :=
  { type := .none, ref := 0, readable := false, writable := false, pipe := ⟨0, 0⟩, ip := ⟨0, 0⟩ }

/-- What the file refers to. -/
def File.target (f : File) : Option Target :=
  match f.type with
  | .none => none
  | .pipe => some (.pipeEnd f.pipe f.writable)
  | .inode | .device => some (.inode f.ip)

/-- `ftable.file`. -/
abbrev FileTable := Fin nfile → File

namespace FileTable

/-! ## 2. The sections under `ftable.lock` -/

/-- The loop of `file_alloc`. -/
def findFree (files : FileTable) : Option (Fin nfile) :=
  (List.finRange nfile).find? fun f => (files f).ref == 0

/-- Change one entry. -/
def modify (files : FileTable) (f : Fin nfile) (g : File → File) : FileTable :=
  Function.update files f (g (files f))

/-- `file_alloc`, where `f` is what the loop has found. -/
def fileAlloc (files : FileTable) (f : Fin nfile) : FileTable :=
  files.modify f fun x => { x with ref := 1 }

/-- `file_dup`; `none` for `NULL`. -/
def fileDup (files : FileTable) (f : Fin nfile) : Option FileTable :=
  if (files f).ref < 1 then none else some (files.modify f fun x => { x with ref := x.ref + 1 })

/-- The section of `file_close`, with what is left to give back. -/
def fileClose (files : FileTable) (f : Fin nfile) : FileTable × Option Target :=
  if (files f).ref < 1 then (files, none)
  else if 0 < (files f).ref - 1 then
    (files.modify f fun x => { x with ref := x.ref - 1 }, none)
  else (files.modify f fun x => { x with ref := 0, type := .none }, (files f).target)

end FileTable

/-! ## 3. Any number of processes -/

/-- Where a process is in `pipe_alloc` or `file_close`. -/
inductive FileAct where
  | idle
  /-- `pipe_alloc` has the page, and calls `file_alloc` for `*f0`. -/
  | allocRead (q : PipeRef)
  /-- It calls `file_alloc` for `*f1`. -/
  | allocWrite (q : PipeRef) (f0 : Fin nfile)
  /-- It is about to initialise `*pi`. -/
  | initPipe (q : PipeRef) (f0 f1 : Fin nfile)
  /-- It is about to fill `**f0`. -/
  | setRead (q : PipeRef) (f0 f1 : Fin nfile)
  /-- It is about to fill `**f1`. -/
  | setWrite (q : PipeRef) (f0 f1 : Fin nfile)
  /-- At `bad`, before `free_physical_page`. -/
  | badPage (q : PipeRef) (f0 : Option (Fin nfile))
  /-- At `bad`, before `file_close(*f0)`. -/
  | badFile (f0 : Fin nfile)
  /-- `file_close` has released `ftable.lock`; what is to come is `pipe_close`, or
  `log_begin_op` and `inode_put`. -/
  | closing (o : Target)
  /-- `pipe_close` has released `pi->lock`, and calls `free_physical_page`. -/
  | freeing (q : PipeRef)
  deriving DecidableEq

/-- The file table, the pages, where each process is, and the handles of all processes, with what
has happened so far: what was given to files and what was given back, by `pipe_close` or
`inode_put`; the pipes made and those whose page was freed; the pages of other users. -/
structure FileState (T : Type*) where
  files : FileTable
  pipes : Word → Pipe
  mem : Physmem
  act : T → FileAct
  handles : List (T × Fin nfile)
  given : List Target
  done : List Target
  made : List PipeRef
  freed : List PipeRef
  others : List Word

/-- What happens next. -/
inductive FileOp (T : Type*) where
  /-- `t` calls `file_alloc`. -/
  | fileAlloc (t : T)
  /-- `t` makes a new file refer to an inode. -/
  | openInode (t : T) (f : Fin nfile) (r : InodeRef) (device : Bool)
  /-- `t` calls `file_dup` on a file of its own, for itself or for a child `u`. -/
  | fileDup (t : T) (f : Fin nfile) (u : T)
  /-- `t` calls `file_close` on a handle of its own. -/
  | fileClose (t : T) (f : Fin nfile)
  /-- `t` calls `pipe_alloc`. -/
  | pipeAlloc (t : T) (serial : Nat)
  /-- `t` goes on in `pipe_alloc` or `file_close`. -/
  | next (t : T)
  /-- Other code takes a page. -/
  | otherAlloc
  /-- Other code gives back a page of its own. -/
  | otherFree (page : Word)

namespace FileState

variable {T : Type*}

/-- The state that `file_init` leaves. -/
def init (pipes : Word → Pipe) (mem : Physmem) : FileState T :=
  { files := fun _ => File.zero, pipes := pipes, mem := mem, act := fun _ => .idle, handles := [],
    given := [], done := [], made := [], freed := [], others := [] }

variable [DecidableEq T]

/-- Move `t` on. -/
def goto (s : FileState T) (t : T) (a : FileAct) : FileState T :=
  { s with act := Function.update s.act t a }

/-- `file_alloc` by `t`. -/
def allocFile (s : FileState T) (t : T) : Option (FileState T × Fin nfile) :=
  s.files.findFree.map fun f =>
    ({ s with files := s.files.fileAlloc f, handles := (t, f) :: s.handles }, f)

/-- The section of `file_close` by `t`, which then gives back what the file referred to. -/
def closeFile (s : FileState T) (t : T) (f : Fin nfile) : FileState T :=
  let r := s.files.fileClose f
  { s with files := r.1, handles := s.handles.erase (t, f) }.goto t (r.2.elim .idle .closing)

/-- The section of `pipe_close`; the page is freed after it when both ends are closed. -/
def closeEnd (s : FileState T) (t : T) (q : PipeRef) (writable : Bool) : FileState T :=
  let pi := (s.pipes q.page).close writable
  { s with
    pipes := Function.update s.pipes q.page pi
    done := .pipeEnd q writable :: s.done }.goto t
      (if pi.readopen = false ∧ pi.writeopen = false then .freeing q else .idle)

/-- `free_physical_page(virt_to_phys(pi))`. -/
def freePipe (s : FileState T) (q : PipeRef) : FileState T :=
  { s with mem := s.mem.freePage q.page, freed := q :: s.freed }

/-- The files `pipe_alloc` fills; `end_` is `false` for `**f0`. -/
def setEnd (s : FileState T) (q : PipeRef) (f : Fin nfile) (writable : Bool) : FileState T :=
  { s with
    files := s.files.modify f fun x =>
      { x with type := .pipe, readable := !writable, writable := writable, pipe := q }
    given := .pipeEnd q writable :: s.given }

/-- The next step of a process inside `pipe_alloc` or `file_close`. -/
def next (s : FileState T) (t : T) : Option (FileState T) :=
  match s.act t with
  | .idle => none
  | .allocRead q =>
    match s.allocFile t with
    | some (s', f0) => some (s'.goto t (.allocWrite q f0))
    | none => some (s.goto t (.badPage q none))
  | .allocWrite q f0 =>
    match s.allocFile t with
    | some (s', f1) => some (s'.goto t (.initPipe q f0 f1))
    | none => some (s.goto t (.badPage q (some f0)))
  | .initPipe q f0 f1 =>
    some ({ s with
      pipes := Function.update s.pipes q.page (Pipe.alloc (s.pipes q.page).data) }.goto t
        (.setRead q f0 f1))
  | .setRead q f0 f1 => some ((s.setEnd q f0 false).goto t (.setWrite q f0 f1))
  | .setWrite q _ f1 => some ((s.setEnd q f1 true).goto t .idle)
  | .badPage q f0 => some ((s.freePipe q).goto t (f0.elim .idle .badFile))
  | .badFile f0 => some (s.closeFile t f0)
  | .closing (.pipeEnd q writable) => some (s.closeEnd t q writable)
  | .closing (.inode r) => some ({ s with done := .inode r :: s.done }.goto t .idle)
  | .freeing q => some ((s.freePipe q).goto t .idle)

/-- One step. -/
def step (s : FileState T) : FileOp T → Option (FileState T)
  | .fileAlloc t =>
    if s.act t = .idle then some ((s.allocFile t).elim s Prod.fst) else none
  | .openInode t f r device =>
    if s.act t = .idle ∧ (t, f) ∈ s.handles ∧ (s.files f).type = .none ∧ .inode r ∉ s.given then
      some { s with
        files := s.files.modify f fun x =>
          { x with type := if device then .device else .inode, ip := r }
        given := .inode r :: s.given }
    else none
  | .fileDup t f u =>
    if s.act t = .idle ∧ (t, f) ∈ s.handles then
      some ((s.files.fileDup f).elim s fun files =>
        { s with files := files, handles := (u, f) :: s.handles })
    else none
  | .fileClose t f =>
    if s.act t = .idle ∧ (t, f) ∈ s.handles then some (s.closeFile t f) else none
  | .pipeAlloc t serial =>
    if s.act t = .idle ∧ ⟨s.mem.allocPage.2, serial⟩ ∉ s.made then
      if s.mem.allocPage.2 = 0 then some { s with mem := s.mem.allocPage.1 }
      else
        let q : PipeRef := ⟨s.mem.allocPage.2, serial⟩
        some ({ s with mem := s.mem.allocPage.1, made := q :: s.made }.goto t (.allocRead q))
    else none
  | .next t => s.next t
  | .otherAlloc =>
    some { s with
      mem := s.mem.allocPage.1
      others := if s.mem.allocPage.2 = 0 then s.others else s.mem.allocPage.2 :: s.others }
  | .otherFree page =>
    if page ∈ s.others then
      some { s with mem := s.mem.freePage page, others := s.others.erase page }
    else none

end FileState

end Lithium
