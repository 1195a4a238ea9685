/-
# A failed `inode_alloc`

`inode_alloc` takes the first free inode on the disk, and only then asks `inode_get` for an entry of
the cache.  When there is none it returns `NULL`, and the inode stays taken on the disk, although
nobody has it.  The buffers of the inodes are free when the call starts: one that somebody else
holds only makes it wait.
-/
import Lithium.Fs.FileRead
import Lithium.Fs.InodeStore
import Lithium.Fs.InodeAlloc

namespace Lithium.Wal

/-! ## 1. The code -/

/-- The loop of `inode_alloc`, from `inum` on; `cache` is what `inode_get` finds. -/
def inodeAllocLoop (env : Env) (sb : Superblock) (dev : BitVec 32) (type : BitVec 16)
    (cache : IcacheState Pid) :
    Nat → BitVec 32 → FileM (Option (IcacheState Pid × Fin ninode))
  | 0, _ => pure none
  | fuel + 1, inum =>
    if inum < sb.ninodes then do
      match ← call (blockRead env (iblock inum sb)) with
      | none => pure none
      | some bp =>
        let data ← call (getData bp)
        if (data.dinode (inodeSlot inum)).type = 0 then
          call (setData bp (data.setDinode (inodeSlot inum) (AllocState.blank type)))
          logWrite bp
          call (blockRelease env bp)
          pure (cache.inodeGet dev inum)
        else
          call (blockRelease env bp)
          inodeAllocLoop env sb dev type cache fuel (inum + 1)
    else pure none

/-- `inode_alloc`; `none` for `NULL`. -/
def inodeAlloc (env : Env) (sb : Superblock) (dev : BitVec 32) (type : BitVec 16)
    (cache : IcacheState Pid) : FileM (Option (IcacheState Pid × Fin ninode)) :=
  inodeAllocLoop env sb dev type cache sb.ninodes.toNat 1

/-! ## 2. The loop -/

section Loop

variable {env : Env} {sb : Superblock} {dev : BitVec 32} {type : BitVec 16}
  {cache : IcacheState Pid} {E : Halt → FileState → Prop}

/-- The loop has the buffer of the inode it has come to. -/
structure AtInode (env : Env) (sb : Superblock) (inum : BitVec 32) (w : World) : Prop where
  lt : inum < sb.ninodes
  null : env.null w.reads = false
  free : w.FreeAt (iblock inum sb)

/-- **The loop of `inode_alloc`**: what holds before each pass, and `R` wherever it ends. -/
theorem inodeAllocLoop_rule {I : Nat → BitVec 32 → FileState → Prop}
    {R : Option (IcacheState Pid × Fin ninode) → FileState → Prop}
    (hdone : ∀ fuel inum s, I fuel inum s → fuel = 0 ∨ ¬ inum < sb.ninodes → R none s)
    (hnull : ∀ fuel inum s, I (fuel + 1) inum s → env.null s.world.reads = true → R none s.ticked)
    (hheld : ∀ fuel inum s, I (fuel + 1) inum s →
      (s.world.bufs (iblock inum sb)).lock.locked = true → E .asleep (s.waiting (iblock inum sb)))
    (htake : ∀ fuel inum s, I (fuel + 1) inum s → AtInode env sb inum s.world →
      ((s.world.fetched env (iblock inum sb)).data.dinode (inodeSlot inum)).type = 0 →
        R (cache.inodeGet dev inum) (s.changed (iblock inum sb)
          (Block.setDinode (s.world.fetched env (iblock inum sb)).data (inodeSlot inum)
            (AllocState.blank type))))
    (hpass : ∀ fuel inum s, I (fuel + 1) inum s → AtInode env sb inum s.world →
      ((s.world.fetched env (iblock inum sb)).data.dinode (inodeSlot inum)).type ≠ 0 →
        I fuel (inum + 1) ((s.got env (iblock inum sb)).released (iblock inum sb))) :
    ∀ (fuel : Nat) (inum : BitVec 32) (s : FileState), I fuel inum s →
      Ends (inodeAllocLoop env sb dev type cache fuel inum) s R E := by
  intro fuel
  induction fuel with
  | zero => exact fun inum s h => hdone 0 inum s h (.inl rfl)
  | succ fuel ih =>
    intro inum s h
    rw [inodeAllocLoop]
    split
    case isFalse hge => exact hdone _ inum s h (.inr hge)
    case isTrue hlt =>
      refine (read_ends (Q := fun r s' => r = none ∧ R none s' ∨ r = some (iblock inum sb) ∧
        AtInode env sb inum s.world ∧ s' = s.got env (iblock inum sb))
        (iblock inum sb) ?none ?held ?some).bind ?rest
      case none => exact fun hread => .inl ⟨rfl, hnull fuel inum s h hread⟩
      case held => exact fun _ hlocked => hheld fuel inum s h hlocked
      case some => exact fun hread hfree => .inr ⟨rfl, ⟨hlt, hread, hfree⟩, rfl⟩
      case rest =>
        rintro r s' (⟨rfl, hR⟩ | ⟨rfl, henter, rfl⟩)
        · exact hR
        · dsimp only
          rw [Ends.congr (getData_bind _ _ _), got_buf]
          split
          case isTrue hzero => exact change_ends env (.pure (htake fuel inum s h henter hzero))
          case isFalse htaken =>
            have hlock : ((s.got env (iblock inum sb)).world.bufs (iblock inum sb)).lock
                = env.lock := by
              rw [got_buf]
              rfl
            exact (release_ends (Q := fun _ s' => I fuel (inum + 1) s') hlock
              (hpass fuel inum s h henter htaken)).bind fun _ s' => ih (inum + 1) s'

end Loop

/-! ## 3. The property, and the condition -/

/-- An inode, as `block_read` shows its block. -/
def World.inode (sb : Superblock) (w : World) (inum : BitVec 32) : Dinode :=
  (w.view (iblock inum sb)).dinode (inodeSlot inum)

/-- A call that returns `NULL` has changed no inode. -/
def FailsClean {α : Type} (sb : Superblock) (w : World)
    (r : EStateM.Result Halt FileState (Option α)) : Prop :=
  ∀ s, r = .ok none s → ∀ inum, s.world.inode sb inum = w.inode sb inum

/-- The loop, from `inum` on, comes to the free inode `k`: `block_read` gives it every block up to
there, and the inodes before are taken. -/
structure Finds (env : Env) (sb : Superblock) (w : World) (inum k : BitVec 32) : Prop where
  from_le : inum ≤ k
  lt_ninodes : k < sb.ninodes
  read : ∀ j, inum ≤ j → j ≤ k → env.null (w.reads + (j.toNat - inum.toNat)) = false
  taken : ∀ j, inum ≤ j → j < k → (w.inode sb j).type ≠ 0
  free : (w.inode sb k).type = 0

/-- `inode_alloc` finds a free inode, and `inode_get` no entry for it. -/
def ClaimsInVain (env : Env) (sb : Superblock) (dev : BitVec 32) (cache : IcacheState Pid)
    (w : World) : Prop :=
  ∃ k, Finds env sb w 1 k ∧ cache.inodeGet dev k = none

/-! ## 4. One pass -/

variable {env : Env} {sb : Superblock} {w w' : World} {inum k : BitVec 32}

/-- The inode the loop has come to, or a later one. -/
theorem eq_or_lt_of_le (h : inum ≤ k) : k = inum ∨ inum < k := by
  have hle : inum.toNat ≤ k.toNat := h
  rcases Nat.eq_or_lt_of_le hle with he | hlt
  · exact .inl (BitVec.eq_of_toNat_eq he.symm)
  · exact .inr hlt

/-- The loop finds the inode it has come to. -/
theorem Finds.here (hlt : inum < sb.ninodes) (hread : env.null w.reads = false)
    (hzero : (w.inode sb inum).type = 0) : Finds env sb w inum inum := by
  refine ⟨BitVec.le_refl inum, hlt, fun j h h' => ?_, fun j h h' => ?_, hzero⟩
  · rw [BitVec.le_antisymm h' h, Nat.sub_self]
    exact hread
  · exact absurd h' (BitVec.not_lt.mpr h)

/-- A free inode is the only one it finds. -/
theorem Finds.eq_here (h : Finds env sb w inum k) (hzero : (w.inode sb inum).type = 0) :
    k = inum := by
  rcases eq_or_lt_of_le h.from_le with he | hlt
  · exact he
  · exact absurd hzero (h.taken inum (BitVec.le_refl inum) hlt)

/-- The next number. -/
theorem toNat_next {n : BitVec 32} (h : inum < n) : (inum + 1).toNat = inum.toNat + 1 := by
  have hn := n.isLt
  have hlt : inum.toNat < n.toNat := h
  have hone : (1 : BitVec 32).toNat = 1 := rfl
  rw [BitVec.toNat_add, hone, Nat.mod_eq_of_lt (by omega)]

/-- A pass over a taken inode: the rest of the loop finds what the loop finds. -/
theorem Finds.next_iff (hlt : inum < sb.ninodes) (hread : env.null w.reads = false)
    (htaken : (w.inode sb inum).type ≠ 0) (hreads : w'.reads = w.reads + 1)
    (hshown : ∀ j, w'.inode sb j = w.inode sb j) :
    Finds env sb w' (inum + 1) k ↔ Finds env sb w inum k := by
  have hnext := toNat_next hlt
  have hle : ∀ {j : BitVec 32}, inum + 1 ≤ j ↔ inum < j := fun {j} => by
    rw [BitVec.le_def, BitVec.lt_def, hnext]
    rfl
  have hindex : ∀ j, inum < j →
      w'.reads + (j.toNat - (inum + 1).toNat) = w.reads + (j.toNat - inum.toNat) := fun j hj => by
    have hj' : inum.toNat < j.toNat := hj
    rw [hreads, hnext]
    omega
  constructor
  · intro h
    have hk := hle.mp h.from_le
    refine ⟨BitVec.le_of_lt hk, h.lt_ninodes, fun j hj hjk => ?_, fun j hj hjk => ?_,
      by rw [← hshown]; exact h.free⟩
    · rcases eq_or_lt_of_le hj with rfl | hj'
      · rw [Nat.sub_self]
        exact hread
      · rw [← hindex j hj']
        exact h.read j (hle.mpr hj') hjk
    · rcases eq_or_lt_of_le hj with rfl | hj'
      · exact htaken
      · rw [← hshown]
        exact h.taken j (hle.mpr hj') hjk
  · intro h
    have hk : inum < k := by
      rcases eq_or_lt_of_le h.from_le with rfl | hk
      · exact absurd h.free htaken
      · exact hk
    refine ⟨hle.mpr hk, h.lt_ninodes, fun j hj hjk => ?_, fun j hj hjk => ?_,
      by rw [hshown]; exact h.free⟩
    · rw [hindex j (hle.mp hj)]
      exact h.read j (BitVec.le_of_lt (hle.mp hj)) hjk
    · rw [hshown]
      exact h.taken j (BitVec.le_of_lt (hle.mp hj)) hjk

/-- What is read and given back shows the same inodes. -/
theorem got_released_looked {s : FileState} {b : BlockNo} (hclean : s.world.CleanAt b)
    (hfree : s.world.FreeAt b) (hread : env.null s.world.reads = false) :
    (s.got env b).released b = s.looked b := by
  rw [got_released, fetched_data env hclean hfree hread]
  rfl

/-- A buffer that nobody refers to still shows what is on the disk. -/
theorem looked_clean {s : FileState} (hclean : ∀ b, s.world.CleanAt b) (b b' : BlockNo) :
    (s.looked b).world.CleanAt b' := by
  intro hzero
  rw [looked_view]
  refine hclean b' ?_
  rcases eq_or_ne b' b with rfl | hne
  · rwa [FileState.looked, put_self] at hzero
  · rwa [FileState.looked, put_of_ne _ hne] at hzero

/-- The inodes after one of them has been assigned. -/
theorem changed_inode (s : FileState) (d : Dinode) (j : BitVec 32) :
    (s.changed (iblock inum sb) ((s.world.view (iblock inum sb)).setDinode (inodeSlot inum)
      d)).world.inode sb j = if j = inum then d else s.world.inode sb j := by
  rw [World.inode, World.inode, changed_view]
  by_cases hb : iblock j sb = iblock inum sb
  · -- the same block: the slots tell the inodes apart
    have hslot : inodeSlot j = inodeSlot inum ↔ j = inum := ⟨inode_place hb, fun he => by rw [he]⟩
    rw [if_pos hb, Block.dinode_setDinode _ d (inodeSlot_lt j), hb]
    simp only [hslot]
  · have hne : j ≠ inum := fun he => hb (by rw [he])
    rw [if_neg hb, if_neg hne]

/-! ## 5. What it does -/

/-- What `inode_alloc` does: it takes the inode that the loop finds, and asks `inode_get` for an
entry; or it finds none, and changes nothing. -/
structure Allocates (env : Env) (sb : Superblock) (dev : BitVec 32) (type : BitVec 16)
    (cache : IcacheState Pid) (w : World) (inum : BitVec 32)
    (r : Option (IcacheState Pid × Fin ninode)) (s : FileState) : Prop where
  found : ∀ k, Finds env sb w inum k → r = cache.inodeGet dev k ∧
    ∀ j, s.world.inode sb j = if j = k then AllocState.blank type else w.inode sb j
  missing : (∀ k, ¬ Finds env sb w inum k) → r = none ∧ ∀ j, s.world.inode sb j = w.inode sb j

variable {dev : BitVec 32} {type : BitVec 16} {cache : IcacheState Pid}

/-- The loop ends without an inode. -/
theorem Allocates.none {s : FileState} (h : ∀ k, ¬ Finds env sb w inum k)
    (hshown : ∀ j, s.world.inode sb j = w.inode sb j) :
    Allocates env sb dev type cache w inum none s :=
  ⟨fun k hk => absurd hk (h k), fun _ => ⟨rfl, hshown⟩⟩

/-- The loop takes the inode it has come to. -/
theorem Allocates.take {s : FileState} (h : Finds env sb s.world inum inum) :
    Allocates env sb dev type cache s.world inum (cache.inodeGet dev inum)
      (s.changed (iblock inum sb) ((s.world.view (iblock inum sb)).setDinode (inodeSlot inum)
        (AllocState.blank type))) := by
  refine ⟨fun k hk => ?_, fun hnone => absurd h (hnone inum)⟩
  obtain rfl := hk.eq_here h.free
  exact ⟨rfl, fun j => changed_inode s _ j⟩

/-- The same, of a state that shows and finds the same. -/
theorem Allocates.congr {w' : World} {inum' : BitVec 32}
    {r : Option (IcacheState Pid × Fin ninode)} {s : FileState}
    (h : Allocates env sb dev type cache w' inum' r s)
    (hfinds : ∀ k, Finds env sb w' inum' k ↔ Finds env sb w inum k)
    (hshown : ∀ j, w'.inode sb j = w.inode sb j) :
    Allocates env sb dev type cache w inum r s where
  found k hk := by
    obtain ⟨hr, htaken⟩ := h.found k ((hfinds k).mpr hk)
    exact ⟨hr, fun j => by rw [htaken, hshown]⟩
  missing hnone := by
    obtain ⟨hr, hsame⟩ := h.missing fun k hk => hnone k ((hfinds k).mp hk)
    exact ⟨hr, fun j => by rw [hsame, hshown]⟩

/-- Where the loop is: the inodes are as they were, and what it will find is what it found. -/
structure Scanned (env : Env) (sb : Superblock) (w : World) (inum₀ : BitVec 32) (fuel : Nat)
    (inum : BitVec 32) (s : FileState) : Prop where
  left : sb.ninodes.toNat ≤ inum.toNat + fuel
  clean : ∀ b, s.world.CleanAt b
  free : ∀ j, s.world.FreeAt (iblock j sb)
  finds : ∀ k, Finds env sb s.world inum k ↔ Finds env sb w inum₀ k
  shown : ∀ j, s.world.inode sb j = w.inode sb j

/-- **The loop of `inode_alloc`** returns, on whatever disk. -/
theorem inodeAllocLoop_ends (fuel : Nat) (inum : BitVec 32) (s : FileState)
    (hfuel : sb.ninodes.toNat ≤ inum.toNat + fuel) (hclean : ∀ b, s.world.CleanAt b)
    (hfree : ∀ j, s.world.FreeAt (iblock j sb)) :
    Ends (inodeAllocLoop env sb dev type cache fuel inum) s
      (Allocates env sb dev type cache s.world inum) fun _ _ => False := by
  have hstart : Scanned env sb s.world inum fuel inum s :=
    ⟨hfuel, hclean, hfree, fun _ => Iff.rfl, fun _ => rfl⟩
  refine inodeAllocLoop_rule (I := Scanned env sb s.world inum) ?done ?null ?held ?take ?pass
    fuel inum s hstart
  case done =>
    intro fuel inum' t h hend
    refine .none (fun k hk => ?_) h.shown
    have hk' := (h.finds k).mpr hk
    have hle : inum'.toNat ≤ k.toNat := hk'.from_le
    have hlt : k.toNat < sb.ninodes.toNat := hk'.lt_ninodes
    rcases hend with rfl | hge
    · have hleft := h.left
      omega
    · exact hge (Nat.lt_of_le_of_lt hle hlt)
  case null =>
    intro fuel inum' t h hnull
    refine .none (fun k hk => ?_) h.shown
    have hk' := (h.finds k).mpr hk
    have hread := hk'.read inum' (BitVec.le_refl inum') hk'.from_le
    rw [Nat.sub_self, Nat.add_zero, hnull] at hread
    cases hread
  case held =>
    intro fuel inum' t h hlocked
    have hfree := h.free inum'
    rw [World.FreeAt, hlocked] at hfree
    cases hfree
  case take =>
    intro fuel inum' t h henter
    rw [fetched_data env (h.clean _) henter.free henter.null]
    intro hzero
    exact (Allocates.take (.here henter.lt henter.null hzero)).congr h.finds h.shown
  case pass =>
    intro fuel inum' t h henter
    rw [fetched_data env (h.clean _) henter.free henter.null,
      got_released_looked (h.clean _) henter.free henter.null]
    intro htaken
    have hnext := toNat_next henter.lt
    have hleft := h.left
    have hshown : ∀ j, (t.looked (iblock inum' sb)).world.inode sb j = t.world.inode sb j :=
      fun j => by rw [World.inode, World.inode, looked_view]
    exact ⟨by omega, looked_clean h.clean _, fun j => looked_free _ (h.free j),
      fun k => (Finds.next_iff henter.lt henter.null htaken rfl hshown).trans (h.finds k),
      fun j => (hshown j).trans (h.shown j)⟩

/-- **A failed `inode_alloc` changes nothing, unless it has found a free inode and then no entry of
the inode cache**: for every disk, every state of the inode cache and every pattern of `NULL`. -/
theorem inodeAlloc_failsClean_iff (env : Env) (sb : Superblock) (dev : BitVec 32)
    (type : BitVec 16) (cache : IcacheState Pid) (s : FileState) (htype : type ≠ 0)
    (hclean : ∀ b, s.world.CleanAt b) (hfree : ∀ j, s.world.FreeAt (iblock j sb)) :
    FailsClean sb s.world ((inodeAlloc env sb dev type cache).run s) ↔
      ¬ ClaimsInVain env sb dev cache s.world := by
  have hends : Ends (inodeAlloc env sb dev type cache) s
      (Allocates env sb dev type cache s.world 1) fun _ _ => False :=
    inodeAllocLoop_ends sb.ninodes.toNat 1 s (Nat.le_add_left _ _) hclean hfree
  constructor
  · rintro hkeeps ⟨k, hk, hfull⟩
    obtain ⟨r, s', hrun, hres⟩ := hends.returns
    obtain ⟨rfl, htaken⟩ := hres.found k hk
    have hsame := hkeeps s' (by rw [hrun, hfull]) k
    rw [htaken k, if_pos rfl] at hsame
    refine htype ?_
    calc type = (AllocState.blank type).type := rfl
      _ = (s.world.inode sb k).type := congrArg Dinode.type hsame
      _ = 0 := hk.free
  · intro hnot s' hrun
    have hres := hends.of_run hrun
    refine (hres.missing fun k hk => hnot ⟨k, hk, ?_⟩).2
    exact (hres.found k hk).1.symm

/-- A cache in which every entry is referred to. -/
def fullCache : IcacheState Pid :=
  { IcacheState.init fun _ _ => AllocState.blank 0 with
    inodes := fun i =>
      { dev := 1
        inum := 100 + BitVec.ofNat 32 i.val
        ref := 1
        lock := none
        valid := false
        copy := AllocState.blank 0 } }

theorem inodeAlloc_failsClean_iff_boot :
    FailsClean smallFs bootFiles.world
        ((inodeAlloc ⟨1, fun _ => false, fun _ => true⟩ smallFs 1 2 fullCache).run bootFiles) ↔
      ¬ ClaimsInVain ⟨1, fun _ => false, fun _ => true⟩ smallFs 1 fullCache bootFiles.world :=
  inodeAlloc_failsClean_iff ⟨1, fun _ => false, fun _ => true⟩ smallFs 1 2 fullCache bootFiles
    (by decide) (fun _ _ => rfl) fun _ => rfl

/-- With all fifty entries in use, the inode 1 is taken on the disk for nobody. -/
theorem full_cache_leaks : ¬ ∀ (env : Env) (sb : Superblock) (dev : BitVec 32) (type : BitVec 16)
    (cache : IcacheState Pid) (s : FileState), type ≠ 0 → (∀ b, s.world.CleanAt b) →
    (∀ j, s.world.FreeAt (iblock j sb)) →
    (finalState ((inodeAlloc env sb dev type cache).run s)).refused = false →
    FailsClean sb s.world ((inodeAlloc env sb dev type cache).run s) := by
  intro h
  have hkeeps := h ⟨1, fun _ => false, fun _ => true⟩ smallFs 1 2 fullCache bootFiles (by decide)
    (fun _ _ => rfl) (fun _ => rfl) (by decide +kernel)
  have hnull : (returned ((inodeAlloc ⟨1, fun _ => false, fun _ => true⟩ smallFs 1 2
      fullCache).run bootFiles)).map Option.isNone = some true := by
    decide +kernel
  obtain ⟨r, hr, hnone⟩ := Option.map_eq_some_iff.mp hnull
  rw [Option.isNone_iff_eq_none] at hnone
  subst hnone
  have hsame := hkeeps _ (run_of_returned hr) 1
  have htype := congrArg Dinode.type hsame
  revert htype
  decide +kernel

end Lithium.Wal
