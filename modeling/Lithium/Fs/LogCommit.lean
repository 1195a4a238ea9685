/-
# Committing and recovering

The functions of `log.c` that reach the disk: `read_head`, `write_head`, `write_log`,
`install_trans`, `commit`, `recover_from_log`, `log_init` and the commit of `log_end_op`.

The two copying loops run over the entries of the log, each a slot and a home block.  An entry
touches its own two blocks only, so what a loop leaves at an entry is what the entry alone would
leave there (`afterEntries_at`), whichever of its reads return `NULL`.
-/
import Lithium.Fs.Block
import Lithium.Fs.Log

namespace Lithium.Wal

open RedoLog

/-! ## 1. The code -/

/-- Entry `tail` of the log: block `log.start + tail + 1` and block `log.lh.block[tail]`. -/
structure Entry where
  slot : BlockNo
  home : BlockNo

/-- The entries the loops run over, in the order of `tail`. -/
def entries (l : Log) : List Entry := l.lh.zipIdx.map fun p => ⟨l.slot p.2, p.1⟩

theorem entries_length {l : Log} : (entries l).length = l.lh.length := by
  rw [entries, List.length_map, List.length_zipIdx]

/-- `read_head`. -/
def readHead (env : Env) (l : Log) : BlockM Log := do
  match ← blockRead env l.header with
  | none => pure l
  | some buf =>
    match getHead (← getData buf) with
    | none => throw .outOfBounds
    | some lh =>
      blockRelease env buf
      pure { l with lh := lh }

/-- `write_head`. -/
def writeHead (env : Env) (l : Log) : BlockM Unit := do
  match ← blockRead env l.header with
  | none => pure ()
  | some buf =>
    setData buf (putHead (← getData buf) l.lh)
    blockWrite env buf
    blockRelease env buf

/-- The body of the loop of `write_log`. -/
def writeLogEntry (env : Env) (e : Entry) : BlockM Unit := do
  let toBuf ← blockRead env e.slot
  let fromBuf ← blockRead env e.home
  match toBuf, fromBuf with
  | some toBuf, some fromBuf =>
    setData toBuf (← getData fromBuf)
    blockWrite env toBuf
    blockRelease env fromBuf
    blockRelease env toBuf
  | _, _ => pure ()

/-- `write_log`. -/
def writeLog (env : Env) (l : Log) : BlockM Unit := forM (entries l) (writeLogEntry env)

/-- The body of the loop of `install_trans`. -/
def installEntry (env : Env) (recovering : Bool) (e : Entry) : BlockM Unit := do
  let lbuf ← blockRead env e.slot
  let dbuf ← blockRead env e.home
  match lbuf, dbuf with
  | some lbuf, some dbuf =>
    setData dbuf (← getData lbuf)
    blockWrite env dbuf
    if recovering then pure () else bufUnpin dbuf
    blockRelease env lbuf
    blockRelease env dbuf
  | _, _ => pure ()

/-- `install_trans`. -/
def installTrans (env : Env) (recovering : Bool) (l : Log) : BlockM Unit :=
  forM (entries l) (installEntry env recovering)

/-- `log.lh.n = 0`. -/
def emptied (l : Log) : Log := { l with lh := [] }

/-- `commit`. -/
def commit (env : Env) (l : Log) : BlockM Log := do
  if 0 < l.lh.length then
    writeLog env l
    writeHead env l
    installTrans env false l
    writeHead env (emptied l)
    pure (emptied l)
  else pure l

/-- With an empty log, `commit` does nothing. -/
theorem commit_empty (env : Env) {l : Log} (h : l.lh = []) (w : World) :
    (commit env l).run w = .ok l w := by
  rw [commit, if_neg (by simp [h])]
  rfl

/-- `recover_from_log`. -/
def recoverFromLog (env : Env) (l : Log) : BlockM Log := do
  let l ← readHead env l
  installTrans env true l
  writeHead env (emptied l)
  pure (emptied l)

/-- `log_init`, from the zeroed `struct log` of the boot. -/
def logInit (env : Env) (start size : Nat) : BlockM Log := do
  let l ← readHead env
    { start := start, size := size, outstanding := 0, committing := false, lh := [] }
  recoverFromLog env l

/-- `log_end_op`. -/
def logEndOp (env : Env) (l : Log) : BlockM Log := do
  let (l, doCommit) := l.endOp
  if doCommit then
    let l ← commit env l
    pure l.endCommit
  else pure l

/-! ## 2. One entry -/

/-- The world after one entry was copied, from `src` to `dst`, and both buffers given back. -/
def World.copied (w : World) (src dst : BlockNo) (drop : Nat) : World :=
  (((w.tick 2).stored dst (w.view src)).put src
      ⟨true, w.view src, (w.bufs src).refcnt, sleeplockInit⟩).put dst
    ⟨true, w.view src, (w.bufs dst).refcnt - drop, sleeplockInit⟩

/-- The block an entry is copied to: its slot by `write_log`, its home by `install_trans`. -/
def Entry.dst (toSlot : Bool) (e : Entry) : BlockNo := if toSlot then e.slot else e.home

/-- The block an entry is copied from. -/
def Entry.src (toSlot : Bool) (e : Entry) : BlockNo := if toSlot then e.home else e.slot

/-- The world after one entry, for any answers of its two reads.  A buffer whose partner is `NULL`
is never given back. -/
def World.afterEntry (env : Env) (toSlot : Bool) (drop : Nat) (w : World) (e : Entry) : World :=
  match env.null w.reads, env.null (w.reads + 1) with
  | true, true => w.tick 2
  | true, false => (w.tick 2).put e.home (w.loaded env e.home)
  | false, true => (w.tick 2).put e.slot (w.loaded env e.slot)
  | false, false => w.copied (e.src toSlot) (e.dst toSlot) drop

/-- Neither buffer of the entry stops the process: it is free, or its read returns `NULL`. -/
structure Runnable (env : Env) (r : Nat) (w : World) (e : Entry) : Prop where
  ne : e.slot ≠ e.home
  cleanSlot : w.CleanAt e.slot
  cleanHome : w.CleanAt e.home
  freeSlot : env.null r = false → w.FreeAt e.slot
  freeHome : env.null (r + 1) = false → w.FreeAt e.home

/-- The two reads an entry starts with. -/
theorem readBoth {env : Env} {w : World} {e : Entry} (h : Runnable env w.reads w e)
    {k : Option BlockNo → Option BlockNo → BlockM Unit} :
    (blockRead env e.slot >>= fun x => blockRead env e.home >>= fun y => k x y).run w
      = match env.null w.reads, env.null (w.reads + 1) with
        | true, true => (k none none).run (w.tick 2)
        | true, false => (k none (some e.home)).run ((w.tick 2).put e.home (w.loaded env e.home))
        | false, true => (k (some e.slot) none).run ((w.tick 2).put e.slot (w.loaded env e.slot))
        | false, false => (k (some e.slot) (some e.home)).run
            (((w.tick 2).put e.slot (w.loaded env e.slot)).put e.home (w.loaded env e.home)) := by
  cases h0 : env.null w.reads with
  | true =>
    rw [bind_ok (blockRead_null e.slot h0)]
    cases h1 : env.null (w.reads + 1) with
    | true => rw [bind_ok (blockRead_null e.home h1), tick_tick]
    | false =>
      have hread := blockRead_free (w := w.tick 1) h1 h.cleanHome (h.freeHome h1)
      rw [bind_ok hread, tick_tick, tick_loaded]
  | false =>
    rw [bind_ok (blockRead_free h0 h.cleanSlot (h.freeSlot h0))]
    cases h1 : env.null (w.reads + 1) with
    | true => rw [bind_ok (blockRead_null e.home h1), put_tick, tick_tick]
    | false =>
      -- the first read leaves the buffer of the home block alone
      have hne := h.ne.symm
      have hclean : ((w.tick 1).put e.slot (w.loaded env e.slot)).CleanAt e.home := by
        rw [World.CleanAt, put_of_ne _ hne, view_put_of_ne _ hne]
        exact h.cleanHome
      have hfree : ((w.tick 1).put e.slot (w.loaded env e.slot)).FreeAt e.home := by
        rw [World.FreeAt, put_of_ne _ hne]
        exact h.freeHome h1
      rw [bind_ok (blockRead_free h1 hclean hfree), put_tick, tick_tick,
        loaded_put_of_ne _ _ hne, tick_loaded]

/-- Copying between two held buffers and writing the copy out. -/
theorem copy_run {env : Env} (w : World) {src dst : BlockNo} (hne : src ≠ dst)
    {cs cd : CachedBlock} (hcd : cd.lock = env.lock) {k : BlockM Unit} :
    (getData src >>= fun v => setData dst v >>= fun _ => blockWrite env dst >>= fun _ => k).run
        ((w.put src cs).put dst cd)
      = k.run (((w.stored dst cs.data).put src cs).put dst (cd.assign cs.data)) := by
  rw [bind_ok (getData_run _ _), bind_ok (setData_run _ _ _), put_put, put_self,
    put_of_ne _ hne, put_self, bind_ok (blockWrite_held ?_), put_self, stored_put, stored_put]
  · rfl
  · rw [put_self]
    exact hcd

/-- Giving two held buffers back. -/
theorem releaseBoth_run {env : Env} (w : World) {b b' : BlockNo} (hne : b ≠ b')
    {c c' : CachedBlock} (hc : c.lock = env.lock) (hc' : c'.lock = env.lock) :
    (blockRelease env b >>= fun _ => blockRelease env b').run ((w.put b c).put b' c')
      = .ok () ((w.put b c.release).put b' c'.release) := by
  have hb : ((w.put b c).put b' c').bufs b = c := by rw [put_of_ne _ hne, put_self]
  rw [bind_ok (blockRelease_held (by rw [hb]; exact hc)), hb, put_comm _ hne.symm, put_put,
    blockRelease_held (by rw [put_self]; exact hc'), put_self, put_put]

/-- **One entry of `write_log`.** -/
theorem writeLogEntry_run {env : Env} {w : World} {e : Entry} (h : Runnable env w.reads w e) :
    (writeLogEntry env e).run w = .ok () (w.afterEntry env true 0 e) := by
  rw [writeLogEntry, readBoth h, World.afterEntry]
  split
  · rfl
  · rfl
  · rfl
  · have hne := h.ne.symm
    simp only
    rw [put_comm _ h.ne, copy_run _ hne rfl, releaseBoth_run _ hne rfl rfl]
    rfl

/-- **One entry of `install_trans`.** -/
theorem installEntry_run {env : Env} {w : World} {e : Entry} (recovering : Bool)
    (h : Runnable env w.reads w e) : (installEntry env recovering e).run w
      = .ok () (w.afterEntry env false (if recovering then 0 else 1) e) := by
  rw [installEntry, readBoth h, World.afterEntry]
  split
  · rfl
  · rfl
  · rfl
  · have hne := h.ne
    simp only
    rw [copy_run _ hne rfl]
    cases recovering with
    | true =>
      simp only [if_true]
      rw [releaseBoth_run _ hne rfl rfl]
      rfl
    | false =>
      simp only [Bool.false_eq_true, if_false]
      rw [bind_ok (bufUnpin_run _ _), put_put, put_self, releaseBoth_run _ hne rfl rfl]
      rfl

/-- **`write_head`**, when its read returns a buffer. -/
theorem writeHead_run (env : Env) {w : World} {l : Log} (hnull : env.null w.reads = false)
    (hc : w.CleanAt l.header) (hf : w.FreeAt l.header) :
    (writeHead env l).run w
      = .ok () (((w.tick 1).stored l.header (putHead (w.view l.header) l.lh)).put l.header
          ⟨true, putHead (w.view l.header) l.lh, (w.bufs l.header).refcnt, sleeplockInit⟩) := by
  rw [writeHead, bind_ok (blockRead_free hnull hc hf)]
  simp only
  have hlock : (((w.tick 1).put l.header ((w.loaded env l.header).assign
      (putHead (w.loaded env l.header).data l.lh))).bufs l.header).lock = env.lock := by
    rw [put_self]
    rfl
  rw [bind_ok (getData_run _ _), bind_ok (setData_run _ _ _), put_put, put_self,
    bind_ok (blockWrite_held hlock), put_self, stored_put, blockRelease_held, put_put, put_self]
  · rfl
  · rw [put_self]
    rfl

/-- **`read_head`**, when its read returns a buffer and the header is one `write_head` could have
written. -/
theorem readHead_run (env : Env) {w : World} {l : Log} {lh : List BlockNo}
    (hnull : env.null w.reads = false) (hc : w.CleanAt l.header) (hf : w.FreeAt l.header)
    (hget : getHead (w.view l.header) = some lh) :
    (readHead env l).run w = .ok { l with lh := lh } ((w.tick 1).put l.header
      ⟨true, w.view l.header, (w.bufs l.header).refcnt, sleeplockInit⟩) := by
  rw [readHead, bind_ok (blockRead_free hnull hc hf)]
  simp only
  have hget' : getHead (((w.tick 1).put l.header (w.loaded env l.header)).bufs l.header).data
      = some lh := by
    rw [put_self]
    exact hget
  rw [bind_ok (getData_run _ _), hget']
  simp only
  rw [bind_ok (blockRelease_held _), put_put, put_self]
  · rfl
  · rw [put_self]
    rfl

/-! ## 3. What an entry leaves alone -/

/-- Two worlds agree on a block: in its buffer and on the disk. -/
structure SameAt (w w' : World) (b : BlockNo) : Prop where
  bufs : w'.bufs b = w.bufs b
  disk : w'.disk b = w.disk b

theorem SameAt.refl (w : World) (b : BlockNo) : SameAt w w b := ⟨rfl, rfl⟩

theorem SameAt.symm {w w' : World} {b : BlockNo} (h : SameAt w w' b) : SameAt w' w b :=
  ⟨h.bufs.symm, h.disk.symm⟩

theorem SameAt.trans {w w' w'' : World} {b : BlockNo} (h : SameAt w w' b) (h' : SameAt w' w'' b) :
    SameAt w w'' b := ⟨h'.bufs.trans h.bufs, h'.disk.trans h.disk⟩

theorem SameAt.tick {w w' : World} {b : BlockNo} (h : SameAt w w' b) (m n : Nat) :
    SameAt (w.tick m) (w'.tick n) b := ⟨h.bufs, h.disk⟩

theorem SameAt.view {w w' : World} {b : BlockNo} (h : SameAt w w' b) : w'.view b = w.view b := by
  rw [World.view, World.view, h.bufs, h.disk]

theorem SameAt.clean {w w' : World} {b : BlockNo} (h : SameAt w w' b) (hc : w.CleanAt b) :
    w'.CleanAt b := by
  rw [World.CleanAt, h.view, h.bufs, h.disk]
  exact hc

theorem SameAt.free {w w' : World} {b : BlockNo} (h : SameAt w w' b) (hf : w.FreeAt b) :
    w'.FreeAt b := by
  rw [World.FreeAt, h.bufs]
  exact hf

theorem Runnable.congr {env : Env} {r : Nat} {w w' : World} {e : Entry}
    (h : Runnable env r w e) (hs : SameAt w w' e.slot) (hh : SameAt w w' e.home) :
    Runnable env r w' e where
  ne := h.ne
  cleanSlot := hs.clean h.cleanSlot
  cleanHome := hh.clean h.cleanHome
  freeSlot := fun hn => hs.free (h.freeSlot hn)
  freeHome := fun hn => hh.free (h.freeHome hn)

section Entry

variable (env : Env) (toSlot : Bool) (drop : Nat)

theorem afterEntry_reads (w : World) (e : Entry) :
    (w.afterEntry env toSlot drop e).reads = w.reads + 2 := by
  rw [World.afterEntry]
  split <;> rfl

/-- An entry touches its own two blocks only. -/
theorem afterEntry_frame (w : World) (e : Entry) {b : BlockNo} (hs : b ≠ e.slot)
    (hh : b ≠ e.home) : SameAt w (w.afterEntry env toSlot drop e) b := by
  have hsrc : b ≠ e.src toSlot := by cases toSlot <;> assumption
  have hdst : b ≠ e.dst toSlot := by cases toSlot <;> assumption
  rw [World.afterEntry]
  split
  · exact ⟨rfl, rfl⟩
  · exact ⟨put_of_ne _ hh _, rfl⟩
  · exact ⟨put_of_ne _ hs _, rfl⟩
  · refine ⟨?_, Function.update_of_ne hdst _ _⟩
    rw [World.copied, put_of_ne _ hdst, put_of_ne _ hsrc]
    rfl

/-- What an entry leaves at its blocks depends on its blocks only. -/
theorem afterEntry_local {w w' : World} {e : Entry} (hr : w'.reads = w.reads)
    (hs : SameAt w w' e.slot) (hh : SameAt w w' e.home) {b : BlockNo}
    (hb : b = e.slot ∨ b = e.home) :
    SameAt (w.afterEntry env toSlot drop e) (w'.afterEntry env toSlot drop e) b := by
  have hsame : SameAt w w' b := by
    rcases hb with rfl | rfl
    · exact hs
    · exact hh
  have hsrc : SameAt w w' (e.src toSlot) := by cases toSlot <;> assumption
  have hdst : SameAt w w' (e.dst toSlot) := by cases toSlot <;> assumption
  rw [World.afterEntry, World.afterEntry, hr]
  split
  · exact ⟨hsame.bufs, hsame.disk⟩
  · refine ⟨?_, hsame.disk⟩
    rw [World.loaded, World.loaded, hh.view, hh.bufs]
    simp only [World.put, World.tick, Function.update_apply, hsame.bufs]
  · refine ⟨?_, hsame.disk⟩
    rw [World.loaded, World.loaded, hs.view, hs.bufs]
    simp only [World.put, World.tick, Function.update_apply, hsame.bufs]
  · constructor
    · simp only [World.copied, World.put, World.stored, World.tick, Function.update_apply,
        hsrc.view, hsrc.bufs, hdst.bufs, hsame.bufs]
    · simp only [World.copied, World.put, World.stored, World.tick, Function.update_apply,
        hsrc.view, hsame.disk]

/-! ## 4. The loops -/

/-- The world after a loop over entries. -/
def World.afterEntries (w : World) (es : List Entry) : World :=
  es.foldl (World.afterEntry env toSlot drop) w

/-- No block belongs to two entries, or twice to one. -/
def Apart (es : List Entry) : Prop := (es.flatMap fun e => [e.slot, e.home]).Nodup

theorem apart_cons {e : Entry} {es : List Entry} : Apart (e :: es) ↔
    e.slot ≠ e.home ∧ (∀ e' ∈ es, e.slot ≠ e'.slot ∧ e.slot ≠ e'.home) ∧
      (∀ e' ∈ es, e.home ≠ e'.slot ∧ e.home ≠ e'.home) ∧ Apart es := by
  simp only [Apart, List.flatMap_cons, List.cons_append, List.nil_append, List.nodup_cons,
    List.mem_cons, List.mem_flatMap, List.not_mem_nil, or_false]
  constructor
  · rintro ⟨h1, h2, h3⟩
    refine ⟨fun he => h1 (Or.inl he), fun e' he' => ?_, fun e' he' => ?_, h3⟩
    · exact ⟨fun hs => h1 (Or.inr ⟨e', he', Or.inl hs⟩), fun hs => h1 (Or.inr ⟨e', he', Or.inr hs⟩)⟩
    · exact ⟨fun hs => h2 ⟨e', he', Or.inl hs⟩, fun hs => h2 ⟨e', he', Or.inr hs⟩⟩
  · rintro ⟨hne, hs, hh, hr⟩
    refine ⟨?_, ?_, hr⟩
    · rintro (he | ⟨e', he', he | he⟩)
      · exact hne he
      · exact (hs e' he').1 he
      · exact (hs e' he').2 he
    · rintro ⟨e', he', he | he⟩
      · exact (hh e' he').1 he
      · exact (hh e' he').2 he

theorem apart_ne : ∀ {es : List Entry}, Apart es → ∀ {e : Entry}, e ∈ es → e.slot ≠ e.home := by
  intro es
  induction es with
  | nil => intro _ e he; exact absurd he (by simp)
  | cons e₀ es ih =>
    intro hap e he
    obtain ⟨hne, -, -, hap'⟩ := apart_cons.mp hap
    rcases List.mem_cons.mp he with rfl | he
    · exact hne
    · exact ih hap' he

theorem afterEntries_reads : ∀ (es : List Entry) (w : World),
    (w.afterEntries env toSlot drop es).reads = w.reads + 2 * es.length := by
  intro es
  induction es with
  | nil => intro w; rfl
  | cons e es ih =>
    intro w
    rw [World.afterEntries, List.foldl_cons]
    have := ih (w.afterEntry env toSlot drop e)
    rw [World.afterEntries, afterEntry_reads] at this
    rw [this, List.length_cons]
    omega

/-- A loop leaves the blocks of no entry alone. -/
theorem afterEntries_frame {b : BlockNo} : ∀ (es : List Entry) (w : World),
    (∀ e ∈ es, b ≠ e.slot ∧ b ≠ e.home) → SameAt w (w.afterEntries env toSlot drop es) b := by
  intro es
  induction es with
  | nil => intro w _; exact SameAt.refl w b
  | cons e es ih =>
    intro w h
    have he := h e List.mem_cons_self
    exact (afterEntry_frame env toSlot drop w e he.1 he.2).trans
      (ih _ (fun e' he' => h e' (List.mem_cons_of_mem _ he')))

/-- **Locality.**  A loop leaves at the blocks of its `i`-th entry what that entry alone, with its
own two answers, would have left there. -/
theorem afterEntries_at : ∀ (es : List Entry) (w : World), Apart es → ∀ {i : Nat} {e : Entry},
    es[i]? = some e → ∀ {b : BlockNo}, b = e.slot ∨ b = e.home →
      SameAt ((w.tick (2 * i)).afterEntry env toSlot drop e)
        (w.afterEntries env toSlot drop es) b := by
  intro es
  induction es with
  | nil => intro w _ i e h; exact absurd h (by simp)
  | cons e₀ es ih =>
    intro w hap i e hi b hb
    obtain ⟨hne, hslot, hhome, hap'⟩ := apart_cons.mp hap
    rw [World.afterEntries, List.foldl_cons]
    cases i with
    | zero =>
      rw [List.getElem?_cons_zero, Option.some.injEq] at hi
      subst hi
      refine afterEntries_frame env toSlot drop es _ ?_
      intro e' he'
      rcases hb with rfl | rfl
      · exact hslot e' he'
      · exact hhome e' he'
    | succ i =>
      rw [List.getElem?_cons_succ] at hi
      have he := List.mem_of_getElem? hi
      have hrest := ih (w.afterEntry env toSlot drop e₀) hap' hi hb
      refine SameAt.trans (afterEntry_local env toSlot drop ?_ ?_ ?_ hb) hrest
      · rw [tick_reads, tick_reads, afterEntry_reads]
        omega
      · exact (afterEntry_frame env toSlot drop w e₀ (hslot e he).1.symm
          (hhome e he).1.symm).tick _ _
      · exact (afterEntry_frame env toSlot drop w e₀ (hslot e he).2.symm
          (hhome e he).2.symm).tick _ _

/-- A loop whose entries can all run returns. -/
theorem loop_run {body : Entry → BlockM Unit}
    (hbody : ∀ w e, Runnable env w.reads w e →
      (body e).run w = .ok () (w.afterEntry env toSlot drop e)) :
    ∀ (es : List Entry) (w : World), Apart es →
      (∀ i e, es[i]? = some e → Runnable env (w.reads + 2 * i) w e) →
      (forM es body).run w = .ok () (w.afterEntries env toSlot drop es) := by
  intro es
  induction es with
  | nil => intro w _ _; rfl
  | cons e₀ es ih =>
    intro w hap hrun
    obtain ⟨hne, hslot, hhome, hap'⟩ := apart_cons.mp hap
    have h0 : Runnable env w.reads w e₀ := hrun 0 e₀ rfl
    rw [List.forM_cons, bind_ok (hbody w e₀ h0), ih _ hap' ?_]
    · rfl
    · intro i e hi
      have he := List.mem_of_getElem? hi
      have hr := hrun (i + 1) e (by rw [List.getElem?_cons_succ]; exact hi)
      rw [afterEntry_reads, show w.reads + 2 + 2 * i = w.reads + 2 * (i + 1) by omega]
      exact hr.congr
        (afterEntry_frame env toSlot drop w e₀ (hslot e he).1.symm (hhome e he).1.symm)
        (afterEntry_frame env toSlot drop w e₀ (hslot e he).2.symm (hhome e he).2.symm)

/-- A loop writes to the blocks its entries are copied to, and records it. -/
theorem afterEntry_writes (w : World) (e : Entry) :
    ∃ ws, (w.afterEntry env toSlot drop e).writes = w.writes ++ ws ∧
      (w.afterEntry env toSlot drop e).disk = applyWrites w.disk ws ∧
      ∀ x ∈ ws, x.1 = e.dst toSlot := by
  rw [World.afterEntry]
  split
  · exact ⟨[], by simp, rfl, by simp⟩
  · exact ⟨[], by simp, rfl, by simp⟩
  · exact ⟨[], by simp, rfl, by simp⟩
  · exact ⟨[(e.dst toSlot, w.view (e.src toSlot))], rfl, rfl, by simp⟩

theorem afterEntries_writes : ∀ (es : List Entry) (w : World),
    ∃ ws, (w.afterEntries env toSlot drop es).writes = w.writes ++ ws ∧
      (w.afterEntries env toSlot drop es).disk = applyWrites w.disk ws ∧
      ∀ x ∈ ws, ∃ e ∈ es, x.1 = e.dst toSlot := by
  intro es
  induction es with
  | nil => intro w; exact ⟨[], by simp [World.afterEntries], rfl, by simp⟩
  | cons e es ih =>
    intro w
    obtain ⟨us, hus, hud, hua⟩ := afterEntry_writes env toSlot drop w e
    obtain ⟨vs, hvs, hvd, hva⟩ := ih (w.afterEntry env toSlot drop e)
    refine ⟨us ++ vs, ?_, ?_, ?_⟩
    · rw [World.afterEntries, List.foldl_cons]
      rw [World.afterEntries] at hvs
      rw [hvs, hus, List.append_assoc]
    · rw [World.afterEntries, List.foldl_cons]
      rw [World.afterEntries] at hvd
      rw [hvd, hud, applyWrites_append]
    · intro x hx
      rcases List.mem_append.mp hx with hx | hx
      · exact ⟨e, List.mem_cons_self, hua x hx⟩
      · obtain ⟨e', he', h'⟩ := hva x hx
        exact ⟨e', List.mem_cons_of_mem _ he', h'⟩

end Entry

end Lithium.Wal
