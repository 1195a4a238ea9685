/-
# A crash while a file is written

`file_write` cuts a write into pieces, each in an operation of the log of its own.  Nothing reaches
the disk before the `log_end_op` of a piece, and what reaches it there is a commit: a crash at any
disk write of the call leaves the file as it was between two pieces.  When the call returns, all it
has written is on the disk.
-/
import Lithium.Fs.FileWrite
import Lithium.Fs.LogWatch

namespace Lithium.Wal

open Extents RedoLog

/-! ## 1. The property -/

/-- The disk writes of a call, whether it returns or not. -/
def fileWritesOf {α : Type} (m : FileM α) (s : FileState) : List (BlockNo × Block) :=
  (finalState (m.run s)).world.writes.drop s.world.writes.length

/-- A disk that recovers to the file with the first `j` bytes of `src` in it, from `off` on, and to
every other block outside the log, but the one of the inode, as it was. -/
def HoldsPart (area : LogArea) (ip : Dinode) (home : BlockNo) (w : World) (src : Nat → BitVec 8)
    (off j : Nat) (d : Disk) : Prop :=
  ∃ c, Recovers area d c ∧ Stored area ip home w (World.boot c) src off j

/-- What a crash leaves of a call that has written `k` bytes in the end: at each of its disk writes
the first bytes, up to the end of a piece, and all of them when it has returned. -/
structure WritesWhole (area : LogArea) (ip : Dinode) (home : BlockNo) (w : World)
    (src : Nat → BitVec 8) (off k : Nat) (ws : List (BlockNo × Block)) : Prop where
  crash : Throughout (fun d => ∃ j, (j = k ∨ j < k ∧ maxPiece ∣ j) ∧
    HoldsPart area ip home w src off j d) w.disk ws
  returned : HoldsPart area ip home w src off k (applyWrites w.disk ws)

/-! ## 2. Calls that write nothing -/

/-- The disk is as it was. -/
structure SameDisk (s t : FileState) : Prop where
  disk : t.world.disk = s.world.disk
  writes : t.world.writes = s.world.writes

/-- A call that writes nothing to the disk. -/
def KeepsDisk {α : Type} (m : FileM α) : Prop :=
  ∀ s, Ends m s (fun _ t => SameDisk s t) fun _ _ => True

section Keeps

variable {env : Env} {sb : Superblock} {α β : Type} {s t u : FileState}

theorem SameDisk.refl (s : FileState) : SameDisk s s := ⟨rfl, rfl⟩

theorem SameDisk.trans (h : SameDisk s t) (h' : SameDisk t u) : SameDisk s u :=
  ⟨h'.disk.trans h.disk, h'.writes.trans h.writes⟩

theorem KeepsDisk.bind {m : FileM α} {f : α → FileM β} (h : KeepsDisk m)
    (hf : ∀ a, KeepsDisk (f a)) : KeepsDisk (m >>= f) := fun s =>
  (h s).bind fun a s' hs => (hf a s').mono (fun _ _ hs' => hs.trans hs') fun _ _ _ => trivial

theorem keepsDisk_pure (a : α) : KeepsDisk (pure a : FileM α) := SameDisk.refl

theorem startCall_disk : KeepsDisk startCall := fun _ => ⟨rfl, rfl⟩

theorem inodeUpdate_disk (inum : BitVec 32) (ip : Dinode) :
    KeepsDisk (inodeUpdate env sb inum ip) := fun _ =>
  inodeUpdate_ends sb inum ip (fun _ => ⟨rfl, rfl⟩) (fun _ _ => trivial) fun _ _ => ⟨rfl, rfl⟩

theorem inodeLock_disk (ip : Inode Pid) : KeepsDisk (inodeLock env sb ip) := fun s => by
  refine inodeLock_ends (fun _ _ _ => trivial) fun _ => ?_
  unfold FileState.locked
  split
  · split
    · exact ⟨rfl, rfl⟩
    · exact ⟨rfl, rfl⟩
  · exact .refl s

/-- The loop of `inode_write`. -/
theorem writeLoop_disk (ip : Dinode) (n : BitVec 32) (src : Nat → BitVec 8) (fuel : Nat)
    (tot off : BitVec 32) : KeepsDisk (fileLoop env ip n (copyIn src) fuel tot off) := fun s => by
  refine fileLoop_ends (I := fun _ _ => SameDisk s) ?out ?null ?held ?pass fuel tot off s (.refl s)
  case out => exact fun _ _ _ _ _ _ => trivial
  case null => exact fun _ _ _ h _ => h.trans ⟨rfl, rfl⟩
  case held => exact fun _ _ _ _ _ _ => trivial
  case pass =>
    intro tot off t b h _
    refine copyIn_ends ⟨?_, ?_⟩
    · rw [FileState.logged, put_self]
    · rw [logged_released]
      exact h.trans ⟨rfl, rfl⟩

theorem inodeWrite_disk (inum : BitVec 32) (ip : Dinode) (src : Nat → BitVec 8)
    (off n : BitVec 32) : KeepsDisk (inodeWrite env sb inum ip src off n) := by
  refine startCall_disk.bind fun _ => ?_
  split
  · refine (writeLoop_disk ip n src _ _ _).bind fun r => ?_
    exact (inodeUpdate_disk inum _).bind fun _ => keepsDisk_pure _
  · exact keepsDisk_pure (-1, ip)

end Keeps

/-! ## 3. A piece -/

/-- `t` is `s` after some disk writes, and a crash at any of them leaves a disk that leads to
contents of which `P` holds. -/
def Crashes (area : LogArea) (P : Disk → Prop) (s t : FileState) : Prop :=
  ∃ ws, t.world.writes = s.world.writes ++ ws ∧ t.world.disk = applyWrites s.world.disk ws ∧
    Throughout (fun d => ∃ c, P c ∧ area.layout.Leads d c) s.world.disk ws

section Piece

variable {env : Env} {sb : Superblock} {area : LogArea} {P Q : Disk → Prop} {s t u : FileState}

theorem Crashes.of_same (h : SameDisk s t) {c : Disk} (hc : P c)
    (hleads : area.layout.Leads s.world.disk c) : Crashes area P s t :=
  ⟨[], by rw [h.writes, List.append_nil], h.disk, throughout_nil ⟨c, hc, hleads⟩⟩

theorem Crashes.trans (h : Crashes area P s t) (h' : Crashes area P t u) : Crashes area P s u := by
  obtain ⟨ws, hwrites, hdisk, hthrough⟩ := h
  obtain ⟨ws', hwrites', hdisk', hthrough'⟩ := h'
  refine ⟨ws ++ ws', ?_, ?_, throughout_append hthrough (hdisk ▸ hthrough')⟩
  · rw [hwrites', hwrites, List.append_assoc]
  · rw [hdisk', hdisk, applyWrites_append]

theorem Crashes.mono (h : Crashes area P s t) (hPQ : ∀ c, P c → Q c) : Crashes area Q s t := by
  obtain ⟨ws, hwrites, hdisk, hthrough⟩ := h
  exact ⟨ws, hwrites, hdisk, hthrough.mono fun _ ⟨c, hc, hleads⟩ => ⟨c, hPQ c hc, hleads⟩⟩

/-- A call that writes nothing, before one that does. -/
theorem Crashes.after (h : SameDisk s t) (h' : Crashes area P t u) : Crashes area P s u := by
  obtain ⟨ws, hwrites, hdisk, hthrough⟩ := h'
  rw [h.disk] at hdisk hthrough
  exact ⟨ws, by rw [hwrites, h.writes], hdisk, hthrough⟩

/-- **`log_end_op`** of the only operation: the disk leads to what was on it, or to what the cache
shows. -/
theorem InOp.ended_crash (hnull : ∀ r, env.null r = false) (h : InOp area s)
    (hempty : area.layout.Announces s.world.disk []) : Ends (fileEndOp env) s
      (fun _ t => Crashes area (fun c => c = s.world.disk ∨
          ∀ b, area.layout.home b → c b = s.world.view b) s t ∧
        area.layout.Empty t.world.disk s.world.view) fun _ _ => False := by
  have hsynced : ∀ b, b ∉ s.log.lh → s.world.view b = s.world.disk b := h.ready.synced
  set l : Log := { s.log with outstanding := 0, committing := true } with hl
  by_cases hne : s.log.lh = []
  · have hrun := logEndOp_run h.outstanding (commit_empty env (l := l) hne (w := s.world))
    have hend : (fileEndOp env).run s = .ok s.log.lh { s with log := l.endCommit } := by
      rw [EStateM.run, fileEndOp, hrun]
    refine .of_ok hend ⟨?_, hempty, fun b _ => ?_⟩
    · exact .of_same ⟨rfl, rfl⟩ (Or.inl rfl) (area.layout.leads_of_empty hempty fun _ _ => rfl)
    · exact (hsynced b (by simp [hne])).symm
  · obtain ⟨w', v, v₀, hcommit, -, hv, hv₀, hwrites, hdisk⟩ :=
      commit_run (l := l) hnull ⟨h.of.start, h.of.size⟩ h.fits hne h.ready
    obtain ⟨hthrough, hann, hhome⟩ := area.layout.commit_throughout s.world.view h.fits.nodup
      h.fits.length_le h.fits.homes hempty (fun _ _ => rfl) hv hv₀
    have hoverride : ∀ b, override s.world.disk s.world.view s.log.lh b = s.world.view b := by
      intro b
      rw [override]
      split
      case isTrue => rfl
      case isFalse hmem => exact (hsynced b hmem).symm
    have hrun := logEndOp_run h.outstanding hcommit
    have hend : (fileEndOp env).run s
        = .ok s.log.lh { s with world := w', log := (emptied l).endCommit } := by
      rw [EStateM.run, fileEndOp, hrun]
    refine .of_ok hend ⟨⟨_, hwrites, hdisk, hthrough.mono fun d hd => ?_⟩, ?_, fun b hb => ?_⟩
    · rcases hd with hd | hd
      · exact ⟨_, Or.inl rfl, hd⟩
      · exact ⟨_, Or.inr fun b _ => hoverride b, hd⟩
    · change area.layout.Announces w'.disk []
      rw [hdisk]
      exact hann
    · change w'.disk b = _
      rw [hdisk, hhome b hb, hoverride]

/-- **A crash in a piece** leaves what the cache showed before it, or shows after it. -/
theorem writePiece_crash {f : OpenFile} {src : Nat → BitVec 8} {n : BitVec 32}
    (hnull : ∀ r, env.null r = false)
    (hfile : PlacedFile area (lockedCopy env sb f.ip s.world) (iblock f.ip.inum sb))
    (hroom : 5 ≤ area.layout.capacity) (hn : n.toNat ≤ maxPiece)
    (hfits : f.off.toNat + n.toNat ≤ ndirect * bsize) (hidle : Idle area s)
    (hlock : f.ip.lock = none) (hempty : area.layout.Announces s.world.disk []) :
    Ends (writePiece env sb f src n) s
      (fun _ t => Crashes area (fun c => (∀ b, area.layout.home b → c b = s.world.view b) ∨
          ∀ b, area.layout.home b → c b = t.world.view b) s t ∧
        area.layout.Announces t.world.disk []) fun _ _ => False := by
  obtain ⟨hbegin, hop⟩ := InOp.begun hidle
  obtain ⟨s₁, hrun₁, hop₁, hlog₁, -⟩ := inodeLock_run env sb hnull hop hlock
  have hlh₁ : s₁.log.lh = [] := by
    rw [hlog₁]
    exact hidle.lh
  dsimp only at hrun₁
  have hcopy : (lockedInode env sb f.ip s.world).copy = lockedCopy env sb f.ip s.world := rfl
  obtain ⟨r, s₂, hrun₂, k, -, -, -, hop₂, -, -⟩ :=
    (inodeWrite_ends f.ip.inum src hnull hfile hroom hn hfits hop₁ hlh₁).returns
  obtain ⟨s₃, hrun₃, -, hview₃⟩ := hop₂.ended hnull
  have hrun : (writePiece env sb f src n).run s = .ok (r.1, { f with
      off := if 0 < r.1.toInt then f.off + r.1 else f.off
      ip := inodeUnlock env { lockedInode env sb f.ip s.world with copy := r.2 } },
      s₂.log.lh) s₃ := by
    rw [writePiece, bind_ok hbegin, bind_ok hrun₁, hcopy]
    have hinum : (lockedInode env sb f.ip s.world).inum = f.ip.inum := rfl
    rw [hinum, bind_ok hrun₂, bind_ok hrun₃]
    rfl
  -- nothing is written before `log_end_op`
  have hbegan : SameDisk s { s with log := { s.log with outstanding := 1 } } := ⟨rfl, rfl⟩
  have hsame : SameDisk s s₂ := (hbegan.trans ((inodeLock_disk f.ip _).of_run hrun₁)).trans
    ((inodeWrite_disk f.ip.inum _ src _ _ _).of_run hrun₂)
  obtain ⟨hcrash, hend⟩ := (hop₂.ended_crash hnull (hsame.disk ▸ hempty)).of_run hrun₃
  refine .of_ok hrun ⟨.after hsame (hcrash.mono fun c hc => hc.imp ?_ ?_), hend.announces⟩
  · rintro rfl b -
    rw [hsame.disk]
    exact (hidle.ready.synced b id).symm
  · exact fun hview b hb => (hview b hb).trans (hview₃ b hb).symm

end Piece

/-! ## 4. All pieces -/

section Loop

variable {env : Env} {sb : Superblock} {area : LogArea} {ip : Dinode} {home : BlockNo}
  {src : Nat → BitVec 8} {w w' : World} {f : OpenFile} {s t : FileState} {n : BitVec 32}
  {off k : Nat}

/-- Contents that agree with what a world shows, outside the log. -/
theorem Stored.of_home (hfile : PlacedFile area ip home) (h : Stored area ip home w w' src off k)
    {c : Disk} (hc : ∀ b, area.layout.home b → c b = w'.view b) :
    Stored area ip home w (World.boot c) src off k where
  exist := h.exist
  bytes o ho hne := by
    have hi : o / bsize < ndirect := Nat.div_lt_of_lt_mul (by rw [Nat.mul_comm]; exact ho)
    rw [← h.bytes o ho hne, byteAt, byteAt]
    exact congrArg (fun data : Block => data.byte o)
      (hc _ (hfile.outside _ hi hne))
  others b hb hhome hin := (hc b hin).trans (h.others b hb hhome hin)

/-- Contents of which the first `j` bytes are written, up to the end of a piece. -/
def UpTo (area : LogArea) (ip : Dinode) (home : BlockNo) (w : World) (src : Nat → BitVec 8)
    (off k : Nat) (c : Disk) : Prop :=
  ∃ j, (j = k ∨ j < k ∧ maxPiece ∣ j) ∧ Stored area ip home w (World.boot c) src off j

/-- At the end of the loop nothing more is written. -/
theorem Moved.ended {f' : OpenFile} {s' : FileState} {i : BitVec 32}
    (hfile : PlacedFile area ip (iblock f.ip.inum sb)) (hi : i = n)
    (hmoved : Moved env sb area ip (iblock f.ip.inum sb) src f f' s s' i.toNat)
    (hempty : area.layout.Announces s'.world.disk []) :
    ∃ k, i.toNat ≤ k ∧ k ≤ n.toNat ∧ (i = n ↔ k = n.toNat) ∧
      Moved env sb area ip (iblock f.ip.inum sb) src f f' s s' k ∧
      Crashes area (UpTo area ip (iblock f.ip.inum sb) s.world src f.off.toNat k) s' s' ∧
      area.layout.Announces s'.world.disk [] := by
  subst hi
  refine ⟨i.toNat, Nat.le_refl _, Nat.le_refl _, by simp, hmoved, ?_, hempty⟩
  refine .of_same (.refl s') (c := s'.world.disk) ⟨i.toNat, Or.inl rfl, ?_⟩
    (area.layout.leads_of_empty hempty fun _ _ => rfl)
  exact hmoved.stored.of_home hfile fun b _ => (hmoved.idle.ready.synced b id).symm

/-- A crash in a piece that goes from `i` bytes to `j` leaves `i` bytes, or `j`. -/
theorem Moved.upTo {f₁ f₂ : OpenFile} {s₁ : FileState} {i j : Nat}
    (hfile : PlacedFile area ip (iblock f.ip.inum sb))
    (hmoved : Moved env sb area ip (iblock f.ip.inum sb) src f f₁ s s₁ i)
    (hall : Moved env sb area ip (iblock f.ip.inum sb) src f f₂ s t j)
    (hcrash : Crashes area (fun c => (∀ b, area.layout.home b → c b = s₁.world.view b) ∨
      ∀ b, area.layout.home b → c b = t.world.view b) s₁ t)
    (hij : i ≤ j) (hdvd : maxPiece ∣ i) (hk : j = k ∨ j < k ∧ maxPiece ∣ j) :
    Crashes area (UpTo area ip (iblock f.ip.inum sb) s.world src f.off.toNat k) s₁ t := by
  refine hcrash.mono fun c hc => ?_
  rcases hc with hc | hc
  · refine ⟨i, ?_, hmoved.stored.of_home hfile hc⟩
    rcases Nat.lt_or_ge i k with hik | hik
    · exact Or.inr ⟨hik, hdvd⟩
    · exact Or.inl (by omega)
  · exact ⟨j, hk, hall.stored.of_home hfile hc⟩

/-- Behind a whole piece there is the end, or the start of a piece. -/
theorem piece_next {i r : BitVec 32} (hdvd : maxPiece ∣ i.toNat)
    (hnext : (i + r).toNat = i.toNat + r.toNat) (hr : r.toNat = min maxPiece (n.toNat - i.toNat))
    (hi : i.toNat ≤ n.toNat) : i + r = n ∨ maxPiece ∣ (i + r).toNat := by
  have hmax : maxPiece = 1536 := rfl
  rw [hnext]
  by_cases hend : i.toNat + r.toNat = n.toNat
  · exact Or.inl (BitVec.eq_of_toNat_eq (hnext.trans hend))
  · exact Or.inr ((Nat.dvd_add_iff_right hdvd).mp ⟨1, by omega⟩)

/-- **A crash in the loop of `file_write`.**  `w` is the world the call was made in. -/
theorem pieceLoop_crash (hnull : ∀ r, env.null r = false)
    (hfile : PlacedFile area ip (iblock f.ip.inum sb)) (hroom : 5 ≤ area.layout.capacity)
    (hfits : f.off.toNat + n.toNat ≤ ndirect * bsize) :
    ∀ (fuel : Nat) (i : BitVec 32) (f' : OpenFile) (ops : List (List BlockNo)) (s' : FileState),
      i.toNat ≤ n.toNat → n.toNat - i.toNat ≤ fuel → (i = n ∨ maxPiece ∣ i.toNat) →
      Moved env sb area ip (iblock f.ip.inum sb) src f f' s s' i.toNat →
      area.layout.Announces s'.world.disk [] →
      Ends (pieceLoop env sb src n fuel i f' ops) s'
        (fun r t => ∃ k, i.toNat ≤ k ∧ k ≤ n.toNat ∧ (r.1 = n ↔ k = n.toNat) ∧
          Moved env sb area ip (iblock f.ip.inum sb) src f r.2.1 s t k ∧
          Crashes area (UpTo area ip (iblock f.ip.inum sb) s.world src f.off.toNat k) s' t ∧
          area.layout.Announces t.world.disk []) fun _ _ => False := by
  have hbound : ndirect * bsize < 2 ^ 31 := by decide
  intro fuel
  induction fuel with
  | zero =>
    intro i f' ops s' hi hfuel _ hmoved hempty
    exact hmoved.ended hfile (BitVec.eq_of_toNat_eq (by omega)) hempty
  | succ fuel ih =>
    intro i f' ops s' hi hfuel hpiece hmoved hempty
    have hint := BitVec.toInt_eq_toNat_of_lt (x := i) (by omega)
    have hintn := BitVec.toInt_eq_toNat_of_lt (x := n) (by omega)
    rw [pieceLoop]
    by_cases hlt : i.toInt < n.toInt
    case neg =>
      rw [if_neg hlt]
      exact hmoved.ended hfile (BitVec.eq_of_toNat_eq (by omega)) hempty
    rw [if_pos hlt]
    have hdvd : maxPiece ∣ i.toNat := by
      refine hpiece.resolve_left ?_
      rintro rfl
      omega
    have hlen := pieceLen_toNat (n := n) hi (by omega)
    have hmax : maxPiece = 1536 := rfl
    generalize pieceLen n i = m at hlen ⊢
    have hblocks := hmoved.blocks
    have hoff := hmoved.off
    have hfile' : PlacedFile area (lockedCopy env sb f'.ip s'.world) (iblock f'.ip.inum sb) := by
      rw [hmoved.inum]
      exact hfile.congr hblocks
    set piece : Nat → BitVec 8 := fun k => src (i.toNat + k)
    have hends : Ends (writePiece env sb f' piece m) s' _ _ := writePiece_ends hnull hfile'
      hroom (by omega) (by omega) hmoved.idle hmoved.lock
    have hcrashes : Ends (writePiece env sb f' piece m) s' _ _ := writePiece_crash hnull
      hfile' hroom (by omega) (by omega) hmoved.idle hmoved.lock hempty
    refine (hends.and hcrashes).mono (fun _ _ h => h) (fun _ _ h => h.1) |>.bind ?_
    rintro ⟨r, f'', logged⟩ t ⟨⟨⟨j, hj, hans, hpart⟩, -⟩, hcrash, hempty'⟩
    rw [hmoved.inum] at hpart
    have hall := hmoved.append hpart hblocks
    have hanswer := hans.eq_iff (m := m) (by omega) (by omega)
    dsimp only
    split
    case isTrue hr =>
      obtain rfl := hanswer.mp hr
      subst hr
      have hnext : (i + r).toNat = i.toNat + r.toNat := by
        rw [BitVec.toNat_add]
        omega
      rw [← hnext] at hall
      have hfull := piece_next hdvd hnext hlen hi
      refine (ih _ _ (logged :: ops) _ (by omega) (by omega) hfull hall hempty').mono
        (fun x u hx => ?_) fun _ _ h => h
      obtain ⟨k, hlo, hhi, hiff, hmoved', hcrash', hempty''⟩ := hx
      refine ⟨k, by omega, hhi, hiff, hmoved',
        (hmoved.upTo hfile hall hcrash (by omega) hdvd ?_).trans hcrash', hempty''⟩
      rcases Nat.lt_or_ge (i + r).toNat k with hik | hik
      · refine Or.inr ⟨hik, hfull.resolve_left ?_⟩
        rintro rfl
        omega
      · exact Or.inl (by omega)
    case isFalse hr =>
      have hshort : j ≠ m.toNat := fun he => hr (hanswer.mpr he)
      have hne : i ≠ n := by
        rintro rfl
        omega
      exact ⟨i.toNat + j, by omega, by omega, ⟨fun he => absurd he hne, fun he => by omega⟩, hall,
        hmoved.upTo hfile hall hcrash (by omega) hdvd (Or.inl rfl), hempty'⟩

end Loop

/-- **`file_write` and crashes.**  Whatever direct blocks a writable file has, its size and its
offset: when `file_write` is called between two operations over an empty log, a crash at any of its
disk writes leaves a disk that recovers to the first `j` bytes, where `j` is the end of a piece or
all that the call has written; and when it returns the disk holds all of these. -/
theorem fileWrite_crash (env : Env) (sb : Superblock) (area : LogArea) (f : OpenFile)
    (src : Nat → BitVec 8) (s : FileState) (n : BitVec 32) (h : Called env sb area f s n)
    (hwritable : f.writable = true)
    (hapart : ∀ i < ndirect, blockOf (lockedCopy env sb f.ip s.world) i ≠ 0 →
      blockOf (lockedCopy env sb f.ip s.world) i ≠ iblock f.ip.inum sb ∧
        ¬ area.Inside (blockOf (lockedCopy env sb f.ip s.world) i))
    (hhome : ¬ area.Inside (iblock f.ip.inum sb))
    (hempty : area.layout.Announces s.world.disk []) :
    ∃ r f' ops s' k, (fileWrite env sb f src n).run s = .ok (r, f', ops) s' ∧ k ≤ n.toNat ∧
      r = (if k = n.toNat then n else -1) ∧ f'.off.toNat = f.off.toNat + k ∧
      WritesWhole area (lockedCopy env sb f.ip s.world) (iblock f.ip.inum sb) s.world src
        f.off.toNat k (fileWritesOf (fileWrite env sb f src n) s) := by
  have hbound : ndirect * bsize < 2 ^ 31 := by decide
  have hfits := h.fits
  have hint := BitVec.toInt_eq_toNat_of_lt (x := n) (by omega)
  have hfile : PlacedFile area (lockedCopy env sb f.ip s.world) (iblock f.ip.inum sb) :=
    ⟨h.distinct, fun i hi hne => (hapart i hi hne).1, fun i hi hne => (hapart i hi hne).2, hhome⟩
  have hstart : Moved env sb area (lockedCopy env sb f.ip s.world) (iblock f.ip.inum sb) src f f
      s s (0 : BitVec 32).toNat :=
    ⟨h.idle, .of_view hfile (fun _ _ _ => rfl) src _, rfl, h.lock, rfl, rfl⟩
  have hends := pieceLoop_crash h.null hfile h.room hfits n.toInt.toNat 0 f [] s (Nat.zero_le _)
    (by omega) (Or.inr ⟨0, rfl⟩) hstart hempty
  obtain ⟨⟨i, f', ops⟩, s', hrun, k, -, hk, hdone, hmoved, ⟨ws, hwrites, hdisk, hthrough⟩, hann⟩ :=
    hends.returns
  have hwhole : (fileWrite env sb f src n).run s
      = .ok (if i = n then n else -1, f', ops) s' := by
    rw [fileWrite, if_pos hwritable, h.type]
    dsimp only
    rw [bind_ok hrun]
    rfl
  have hws : fileWritesOf (fileWrite env sb f src n) s = ws := by
    rw [fileWritesOf, hwhole, finalState, hwrites, List.drop_left]
  refine ⟨_, f', ops, s', k, hwhole, hk, by simp only [hdone], hmoved.off, ?_⟩
  rw [hws]
  refine ⟨hthrough.mono ?_, ?_⟩
  · rintro d ⟨c, ⟨j, hj, hstored⟩, hleads⟩
    exact ⟨j, hj, c, recovers_of_leads hleads, hstored⟩
  · rw [← hdisk]
    refine ⟨s'.world.disk, recovers_of_leads (area.layout.leads_of_empty hann fun _ _ => rfl), ?_⟩
    exact hmoved.stored.of_home hfile fun b _ => (hmoved.idle.ready.synced b id).symm

/-- Two pieces of a file that has its first block only: the second piece writes nothing. -/
theorem fileWrite_crash_short : ∃ r f' ops s' k,
    (fileWrite ⟨1, fun _ => false, fun _ => true⟩ smallFs (openAt 100 true)
        (fun i => BitVec.ofNat 8 i) 2000).run idleFiles = .ok (r, f', ops) s' ∧
      k ≤ (2000 : BitVec 32).toNat ∧
      r = (if k = (2000 : BitVec 32).toNat then 2000 else -1) ∧
      f'.off.toNat = (openAt 100 true).off.toNat + k ∧
      WritesWhole fsLog (lockedCopy ⟨1, fun _ => false, fun _ => true⟩ smallFs (openAt 100 true).ip
          idleFiles.world) (iblock (openAt 100 true).ip.inum smallFs) idleFiles.world
        (fun i => BitVec.ofNat 8 i) (openAt 100 true).off.toNat k
        (fileWritesOf (fileWrite ⟨1, fun _ => false, fun _ => true⟩ smallFs (openAt 100 true)
          (fun i => BitVec.ofNat 8 i) 2000) idleFiles) := by
  refine fileWrite_crash ⟨1, fun _ => false, fun _ => true⟩ smallFs fsLog (openAt 100 true)
    (fun i => BitVec.ofNat 8 i) idleFiles 2000 (idleFiles_called 100 true (by decide)) rfl ?apart
    ?home ?empty
  case apart =>
    have hfirst : ∀ i < ndirect, blockOf (openAt 100 true).ip.copy i ≠ 0 →
        blockOf (openAt 100 true).ip.copy i = 100 := by decide +kernel
    intro i hi hne
    have hblock : blockOf (lockedCopy ⟨1, fun _ => false, fun _ => true⟩ smallFs
        (openAt 100 true).ip idleFiles.world) i = 100 := hfirst i hi hne
    rw [hblock]
    exact ⟨by decide, fun hin => absurd hin.2 (by decide)⟩
  case home => exact fun hin => absurd hin.2 (by decide)
  case empty =>
    have hzero : getHead (fun _ => 0) = some [] := getHead_zero (by decide)
    exact ⟨hzero, List.nodup_nil, Nat.zero_le _, fun a ha => absurd ha List.not_mem_nil⟩

end Lithium.Wal
