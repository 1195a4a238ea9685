/-
# The buffers a commit and a recovery hold

`write_log` and `install_trans` take two buffers for each entry of the log and give them back, but
when one of the two `block_read`s returns `NULL` the other buffer is kept.  `read_head` and
`write_head` take the buffer of the header, and give it back.

`Goes` says of a call which groups of buffers it takes, for every pattern of `NULL` and whoever
holds the buffers: it goes through when all the takes return, and sleeps for ever otherwise.
-/
import Lithium.Fs.LogCommit
import Lithium.Lib.Takes

namespace Lithium.Wal

open Takes

/-! ## 1. Groups of buffers -/

/-- Somebody holds the buffer of a block. -/
def World.Locked (w : World) (b : BlockNo) : Prop := (w.bufs b).lock.locked = true

/-- What a call leaves that takes the buffers of `gs`, group after group: those of a group that is
not got in full stay with it.  `dropped` are the blocks it has unpinned. -/
structure Passed (env : Env) (gs : List (List BlockNo)) (dropped : List BlockNo) (w w' : World) :
    Prop where
  passes : Passes env.null w.reads w.Locked gs
  reads : w'.reads = w.reads + total gs
  locked : ∀ b, w'.Locked b ↔ w.Locked b ∨ b ∈ keeps env.null w.reads gs
  refcnt : ∀ b, (w'.bufs b).refcnt + dropped.count b
    = (w.bufs b).refcnt + (keeps env.null w.reads gs).count b

/-- A call that takes the buffers of `gs`: it returns, or sleeps on a buffer that is held, by others
or by the call itself. -/
def Goes {α : Type} (env : Env) (m : BlockM α) (w : World) (gs : List (List BlockNo))
    (dropped : List BlockNo) : Prop :=
  Ends m w (fun _ w' => Passed env gs dropped w w')
    fun e _ => e = .asleep ∧ ¬ Passes env.null w.reads w.Locked gs

variable {env : Env} {w w' w'' : World} {gs gs' : List (List BlockNo)} {d d' : List BlockNo}
  {α β : Type} {m : BlockM α} {f : α → BlockM β}

theorem Passed.refl (w : World) : Passed env [] [] w w :=
  ⟨trivial, rfl, fun b => by simp [keeps], fun b => rfl⟩

/-- One list of groups after another. -/
theorem Passed.append (h : Passed env gs d w w') (h' : Passed env gs' d' w' w'') :
    Passed env (gs ++ gs') (d ++ d') w w'' := by
  have hkeeps := keeps_append env.null w.reads gs gs'
  rw [← h.reads] at hkeeps
  refine ⟨passes_append.mpr ⟨h.passes, ?_⟩, ?_, fun b => ?_, fun b => ?_⟩
  · rw [← h.reads]
    exact (Passes.congr h.locked).mp h'.passes
  · rw [h'.reads, h.reads, total, total, total, List.map_append, List.sum_append, Nat.add_assoc]
  · rw [hkeeps, List.mem_append, h'.locked, h.locked, or_assoc]
  · have hfirst := h.refcnt b
    have hsecond := h'.refcnt b
    rw [hkeeps, List.count_append, List.count_append]
    omega

/-- A call that is made after the groups `gs`. -/
theorem Goes.after (h : Passed env gs d w w') (hm : Goes env m w' gs' d') :
    Ends m w' (fun _ w'' => Passed env (gs ++ gs') (d ++ d') w w'')
      fun e _ => e = .asleep ∧ ¬ Passes env.null w.reads w.Locked (gs ++ gs') := by
  refine hm.mono (fun _ w'' h' => h.append h') ?_
  rintro e _ ⟨he, hnot⟩
  refine ⟨he, fun hall => hnot ?_⟩
  have hrest := (passes_append.mp hall).2
  rw [← h.reads] at hrest
  exact (Passes.congr h.locked).mpr hrest

/-- **Two calls**, one after the other. -/
theorem Goes.bind (h : Goes env m w gs d)
    (hf : ∀ a w', Passed env gs d w w' → Goes env (f a) w' gs' d') :
    Goes env (m >>= f) w (gs ++ gs') (d ++ d') := by
  have hpassed : Ends m w (fun _ w' => Passed env gs d w w')
      fun e _ => e = .asleep ∧ ¬ Passes env.null w.reads w.Locked (gs ++ gs') :=
    h.mono (fun _ _ hp => hp) fun _ _ he => ⟨he.1, fun hp => he.2 (passes_append.mp hp).1⟩
  exact Ends.bind hpassed fun a w' hp => (hf a w' hp).after hp

/-! ## 2. One group -/

/-- A call that takes one group. -/
theorem Passed.single {g : List BlockNo} (hr : Returns env.null w.reads w.Locked g)
    (hreads : w'.reads = w.reads + g.length)
    (hlocked : ∀ b, w'.Locked b ↔ w.Locked b ∨ b ∈ kept env.null w.reads g)
    (hrefcnt : ∀ b, (w'.bufs b).refcnt + d.count b
      = (w.bufs b).refcnt + (kept env.null w.reads g).count b) : Passed env [g] d w w' := by
  have hkeeps : keeps env.null w.reads [g] = kept env.null w.reads g := List.append_nil _
  refine ⟨⟨hr, trivial⟩, by simp [hreads, total], fun b => ?_, fun b => ?_⟩
  · rw [hkeeps, hlocked]
  · rw [hkeeps, hrefcnt]

/-- A group that does not return. -/
theorem not_passes_single {g : List BlockNo} (h : ¬ Returns env.null w.reads w.Locked g) :
    ¬ Passes env.null w.reads w.Locked [g] := fun hp => h hp.1

/-- The buffers `bs` are given back, and the blocks `dropped` unpinned. -/
structure GivenBack (bs dropped : List BlockNo) (w w' : World) : Prop where
  reads : w'.reads = w.reads
  lock : ∀ b, b ∉ bs → (w'.bufs b).lock = (w.bufs b).lock
  free : ∀ b ∈ bs, ¬ w'.Locked b
  refcnt : ∀ b, (w'.bufs b).refcnt + bs.count b + dropped.count b = (w.bufs b).refcnt

/-- A call that returns, and gives the buffers `bs` back. -/
def Gives {α : Type} (m : BlockM α) (w : World) (bs dropped : List BlockNo) : Prop :=
  ∃ a w', m.run w = .ok a w' ∧ GivenBack bs dropped w w'

variable {bs bs' : List BlockNo} {b : BlockNo}

theorem GivenBack.append (h : GivenBack bs d w w') (h' : GivenBack bs' d' w' w'') :
    GivenBack (bs ++ bs') (d ++ d') w w'' where
  reads := h'.reads.trans h.reads
  lock b hb := by
    rw [List.mem_append, not_or] at hb
    rw [h'.lock b hb.2, h.lock b hb.1]
  free b hb := by
    by_cases hb' : b ∈ bs'
    · exact h'.free b hb'
    · have hfree := h.free b ((List.mem_append.mp hb).resolve_right hb')
      rwa [World.Locked, ← h'.lock b hb'] at hfree
  refcnt b := by
    have hfirst := h.refcnt b
    have hsecond := h'.refcnt b
    rw [List.count_append, List.count_append]
    omega

theorem Gives.bind (h : Gives m w bs d) (bs' d' : List BlockNo)
    (hf : ∀ a w', GivenBack bs d w w' → Gives (f a) w' bs' d') :
    Gives (m >>= f) w (bs ++ bs') (d ++ d') := by
  obtain ⟨a, w₁, hrun, hback⟩ := h
  obtain ⟨a', w₂, hrun', hback'⟩ := hf a w₁ hback
  exact ⟨a', w₂, (bind_ok hrun).trans hrun', hback.append hback'⟩

/-- Calls that touch neither the sleeplocks nor the references. -/
theorem getData_gives (b : BlockNo) (w : World) : Gives (getData b) w [] [] :=
  ⟨_, w, getData_run b w, ⟨rfl, fun _ _ => rfl, fun _ hb => absurd hb List.not_mem_nil,
    fun _ => rfl⟩⟩

theorem blockWrite_gives (hlock : (w.bufs b).lock = env.lock) :
    Gives (blockWrite env b) w [] [] :=
  ⟨_, _, blockWrite_held hlock, ⟨rfl, fun _ _ => rfl, fun _ hb => absurd hb List.not_mem_nil,
    fun _ => rfl⟩⟩

/-- A call that changes one buffer only. -/
theorem GivenBack.put {c : CachedBlock} (hbs : ∀ b' ∈ bs, b' = b) (hd : ∀ b' ∈ d, b' = b)
    (hlock : b ∉ bs → c.lock = (w.bufs b).lock) (hfree : b ∈ bs → c.lock.locked = false)
    (hrefcnt : c.refcnt + bs.count b + d.count b = (w.bufs b).refcnt) :
    GivenBack bs d w (w.put b c) where
  reads := rfl
  lock b' hb' := by
    rcases eq_or_ne b' b with rfl | hne
    · rw [put_self, hlock hb']
    · rw [put_of_ne _ hne]
  free b' hb' := by
    obtain rfl := hbs b' hb'
    rw [World.Locked, put_self, hfree hb']
    exact Bool.false_ne_true
  refcnt b' := by
    rcases eq_or_ne b' b with rfl | hne
    · rw [put_self, hrefcnt]
    · rw [put_of_ne _ hne, List.count_eq_zero_of_not_mem fun h => hne (hbs b' h),
        List.count_eq_zero_of_not_mem fun h => hne (hd b' h)]
      rfl

theorem setData_gives (b : BlockNo) (data : Block) (w : World) :
    Gives (setData b data) w [] [] :=
  ⟨_, _, setData_run b data w, .put (by simp) (by simp) (fun _ => rfl) (by simp) rfl⟩

theorem bufUnpin_gives (hpos : 0 < (w.bufs b).refcnt) : Gives (bufUnpin b) w [] [b] :=
  ⟨_, _, bufUnpin_run b w, .put (by simp) (by simp) (fun _ => rfl) (by simp) (by
    rw [List.count_singleton_self]
    exact Nat.sub_add_cancel hpos)⟩

theorem blockRelease_gives (hlock : (w.bufs b).lock = env.lock) (hpos : 0 < (w.bufs b).refcnt) :
    Gives (blockRelease env b) w [b] [] :=
  ⟨_, _, blockRelease_held hlock, .put (by simp) (by simp) (by simp) (fun _ => rfl) (by
    rw [List.count_singleton_self]
    exact Nat.sub_add_cancel hpos)⟩

/-! ## 3. Reading, and giving back -/

/-- The buffers `bs` are with the process, after `n` calls of `block_read`. -/
structure Got (env : Env) (bs : List BlockNo) (n : Nat) (w w' : World) : Prop where
  reads : w'.reads = w.reads + n
  held : ∀ b ∈ bs, (w'.bufs b).lock = env.lock
  lock : ∀ b, b ∉ bs → (w'.bufs b).lock = (w.bufs b).lock
  refcnt : ∀ b, (w'.bufs b).refcnt = (w.bufs b).refcnt + bs.count b

theorem Got.refl (env : Env) (w : World) : Got env [] 0 w w :=
  ⟨rfl, fun _ hb => absurd hb List.not_mem_nil, fun _ _ => rfl, fun _ => rfl⟩

/-- A `block_read` that returns `NULL`. -/
theorem Got.tick {n : Nat} (h : Got env bs n w w') : Got env bs (n + 1) w (w'.tick 1) :=
  ⟨by rw [tick_reads, h.reads, Nat.add_assoc], h.held, h.lock, h.refcnt⟩

/-- A `block_read` that returns a buffer. -/
theorem Got.fetch {n : Nat} (h : Got env bs n w w') (b : BlockNo) :
    Got env (bs ++ [b]) (n + 1) w ((w'.tick 1).put b (w'.fetched env b)) where
  reads := by rw [put_reads, tick_reads, h.reads, Nat.add_assoc]
  held b' hb' := by
    rcases eq_or_ne b' b with rfl | hne
    · rw [put_self]
      rfl
    · rw [put_of_ne _ hne]
      exact h.held b' ((List.mem_append.mp hb').resolve_right (by simpa using hne))
  lock b' hb' := by
    rw [List.mem_append, not_or, List.mem_singleton] at hb'
    rw [put_of_ne _ hb'.2]
    exact h.lock b' hb'.1
  refcnt b' := by
    have hcount := h.refcnt b'
    rw [List.count_append]
    rcases eq_or_ne b' b with rfl | hne
    · rw [put_self, List.count_singleton_self, ← Nat.add_assoc, ← hcount]
      rfl
    · have hzero : [b].count b' = 0 := List.count_eq_zero_of_not_mem (by simpa using hne)
      rw [put_of_ne _ hne, hzero, Nat.add_zero]
      exact hcount

/-- What is locked while the process has the buffers `bs`. -/
theorem Got.locked {n : Nat} (h : Got env bs n w w') (b : BlockNo) :
    w'.Locked b ↔ w.Locked b ∨ b ∈ bs := by
  by_cases hb : b ∈ bs
  · refine iff_of_true ?_ (.inr hb)
    rw [World.Locked, h.held b hb]
    rfl
  · rw [World.Locked, h.lock b hb]
    exact (or_iff_left hb).symm

/-- **The process has got what it gets of a group, and gives back what it does not keep.** -/
theorem Got.passed {g : List BlockNo} (h : Got env (got env.null w.reads g) g.length w w')
    (hr : Returns env.null w.reads w.Locked g) (hback : GivenBack bs d w' w'')
    (hperm : (bs ++ kept env.null w.reads g).Perm (got env.null w.reads g)) :
    Passed env [g] d w w'' := by
  have hmem : ∀ b, b ∈ got env.null w.reads g ↔ b ∈ bs ∨ b ∈ kept env.null w.reads g := fun b => by
    rw [← hperm.mem_iff, List.mem_append]
  refine .single hr (hback.reads.trans h.reads) (fun b => ?_) fun b => ?_
  · by_cases hb : b ∈ bs
    · refine iff_of_false (hback.free b hb) ?_
      rintro (hlocked | hkept)
      · exact hr.free b ((hmem b).mpr (.inl hb)) hlocked
      · exact List.disjoint_of_nodup_append (hperm.nodup_iff.mpr hr.nodup) hb hkept
    · have hlock : w''.Locked b ↔ w'.Locked b := by rw [World.Locked, hback.lock b hb]; rfl
      rw [hlock, h.locked, hmem, or_iff_right hb]
  · have hfirst := h.refcnt b
    have hsecond := hback.refcnt b
    have hcount := hperm.count_eq b
    rw [List.count_append] at hcount
    omega

/-- `block_read`, after the process has got the buffers `bs` of its group. -/
theorem Got.read_ends {n : Nat} (h : Got env bs n w w') (b : BlockNo)
    {Q : Option BlockNo → World → Prop} {E : Halt → World → Prop}
    (hnone : env.null (w.reads + n) = true → ∀ w'', Got env bs (n + 1) w w'' → Q none w'')
    (hheld : env.null (w.reads + n) = false → w.Locked b ∨ b ∈ bs → ∀ w'', E .asleep w'')
    (hsome : env.null (w.reads + n) = false → ¬ w.Locked b → b ∉ bs →
      ∀ w'', Got env (bs ++ [b]) (n + 1) w w'' → Q (some b) w'') :
    Ends (blockRead env b) w' Q E := by
  rw [← h.reads] at hnone hheld hsome
  refine blockRead_ends b (fun hnull => hnone hnull _ h.tick)
    (fun hnull hlocked => hheld hnull ((h.locked b).mp hlocked) _) fun hnull hfree => ?_
  have hnot : ¬ (w.Locked b ∨ b ∈ bs) := fun hl => by
    rw [World.FreeAt, (h.locked b).mpr hl] at hfree
    cases hfree
  exact hsome hnull (fun hl => hnot (.inl hl)) (fun hb => hnot (.inr hb)) _ (h.fetch b)

/-- **A call that reads a block and gives it back.** -/
theorem readOne_goes {k : Option BlockNo → BlockM α} (hnone : ∀ w', Gives (k none) w' [] [])
    (hsome : ∀ w', Got env [b] 1 w w' → Gives (k (some b)) w' [b] []) :
    Goes env (blockRead env b >>= k) w [[b]] [] := by
  refine ((Got.refl env w).read_ends (Q := fun r w' => Returns env.null w.reads w.Locked [b] ∧
    Got env (got env.null w.reads [b]) 1 w w' ∧ (r = none ∧ got env.null w.reads [b] = [] ∨
      r = some b ∧ got env.null w.reads [b] = [b])) b ?none ?held ?some).bind ?rest
  case none =>
    intro hnull w' hgot
    have hnil : got env.null w.reads [b] = [] := if_pos hnull
    refine ⟨returns_single.mpr fun h => ?_, by rwa [hnil], .inl ⟨rfl, hnil⟩⟩
    rw [Nat.add_zero, h] at hnull
    cases hnull
  case held =>
    intro hnull hheld _
    refine ⟨rfl, not_passes_single fun hr => returns_single.mp hr hnull ?_⟩
    exact hheld.resolve_right List.not_mem_nil
  case some =>
    intro hnull hfree _ w' hgot
    have hone : got env.null w.reads [b] = [b] := if_neg (Bool.eq_false_iff.mp hnull)
    exact ⟨returns_single.mpr fun _ => hfree, by rwa [hone], .inr ⟨rfl, hone⟩⟩
  case rest =>
    rintro r w' ⟨hr, hgot, ⟨rfl, hnil⟩ | ⟨rfl, hone⟩⟩
    · obtain ⟨a, w'', hrun, hback⟩ := hnone w'
      exact .of_ok hrun (hgot.passed hr hback (by rw [kept_single, hnil, List.nil_append]))
    · rw [hone] at hgot
      obtain ⟨a, w'', hrun, hback⟩ := hsome w' hgot
      exact .of_ok hrun ((hone.symm ▸ hgot).passed hr hback
        (by rw [kept_single, hone, List.append_nil]))

/-- What the two `block_read`s of an entry have returned. -/
structure GotPair (env : Env) (b b' : BlockNo) (r r' : Option BlockNo) (w w' : World) : Prop where
  returns : Returns env.null w.reads w.Locked [b, b']
  got : Got env (got env.null w.reads [b, b']) 2 w w'
  first : r = if env.null w.reads then none else some b
  second : r' = if env.null (w.reads + 1) then none else some b'

/-- **The two `block_read`s of an entry.** -/
theorem readTwo_ends {k : Option BlockNo → Option BlockNo → BlockM α} {b b' : BlockNo}
    {Q : α → World → Prop} (hk : ∀ r r' w', GotPair env b b' r r' w w' → Ends (k r r') w' Q
      fun e _ => e = .asleep ∧ ¬ Passes env.null w.reads w.Locked [[b, b']]) :
    Ends (blockRead env b >>= fun r => blockRead env b' >>= fun r' => k r r') w Q
      fun e _ => e = .asleep ∧ ¬ Passes env.null w.reads w.Locked [[b, b']] := by
  have hgot := got_pair env.null w.reads b b'
  refine ((Got.refl env w).read_ends (Q := fun r w' =>
    (env.null w.reads = false → ¬ w.Locked b) ∧
      Got env (if env.null w.reads then [] else [b]) 1 w w' ∧
      r = if env.null w.reads then none else some b) b ?none ?held ?some).bind ?rest
  case none =>
    intro hnull w' h
    have hnull' : env.null w.reads = true := hnull
    simp only [hnull', if_true]
    exact ⟨fun h => (by cases h), h, trivial⟩
  case held =>
    refine fun hnull hheld _ => ⟨rfl, not_passes_single fun hr => ?_⟩
    refine hr.free b ?_ (hheld.resolve_right List.not_mem_nil)
    have hnull' : env.null w.reads = false := hnull
    simp [hgot, hnull']
  case some =>
    intro hnull hfree _ w' h
    have hnull' : env.null w.reads = false := hnull
    simp only [hnull', Bool.false_eq_true, if_false]
    exact ⟨fun _ => hfree, h, trivial⟩
  case rest =>
    rintro r w₁ ⟨hfree, h, hr⟩
    have hbs : (if env.null w.reads then [] else [b]).Nodup ∧
        ∀ x ∈ (if env.null w.reads then [] else [b]), ¬ w.Locked x := by
      cases hnull : env.null w.reads with
      | true => simp
      | false => simpa using hfree hnull
    generalize (if env.null w.reads then [] else [b]) = bs at h hbs hgot
    refine (h.read_ends (Q := fun r' w₂ => GotPair env b b' r r' w w₂) b'
      ?none' ?held' ?some').bind ?rest'
    case none' =>
      intro hnull w₂ h₂
      rw [hnull, if_pos rfl, List.append_nil] at hgot
      exact ⟨⟨hgot ▸ hbs.1, hgot ▸ hbs.2⟩, hgot ▸ h₂, hr, by rw [hnull]; rfl⟩
    case held' =>
      refine fun hnull hheld _ => ⟨rfl, not_passes_single fun hret => ?_⟩
      rw [hnull, if_neg Bool.false_ne_true] at hgot
      rcases hheld with hlocked | hmem
      · exact hret.free b' (by simp [hgot]) hlocked
      · have hnodup := hgot ▸ hret.nodup
        exact List.disjoint_of_nodup_append hnodup hmem List.mem_cons_self
    case some' =>
      intro hnull hfree' hnot w₂ h₂
      rw [hnull, if_neg Bool.false_ne_true] at hgot
      refine ⟨⟨?_, ?_⟩, hgot ▸ h₂, hr, by rw [hnull]; rfl⟩
      · rw [hgot]
        exact List.nodup_append.mpr ⟨hbs.1, List.nodup_singleton _, by
          rintro x hx _ hy rfl
          exact hnot (List.mem_singleton.mp hy ▸ hx)⟩
      · rw [hgot]
        intro x hx
        rcases List.mem_append.mp hx with hx | hx
        · exact hbs.2 x hx
        · exact List.mem_singleton.mp hx ▸ hfree'
    case rest' => exact fun r' w₂ hp => hk r r' w₂ hp

/-- **A call that reads two blocks and gives them back**, when it has got both. -/
theorem readTwo_goes {k : Option BlockNo → Option BlockNo → BlockM α} {b b' : BlockNo}
    (hpart : ∀ r r' w', r = none ∨ r' = none → Gives (k r r') w' [] [])
    (hfull : env.null w.reads = false → env.null (w.reads + 1) = false → b ≠ b' →
      ∀ w', Got env [b, b'] 2 w w' → ∃ bs, bs.Perm [b, b'] ∧
        Gives (k (some b) (some b')) w' bs d)
    (hdropped : (env.null w.reads || env.null (w.reads + 1)) = true → d = []) :
    Goes env (blockRead env b >>= fun r => blockRead env b' >>= fun r' => k r r') w
      [[b, b']] d := by
  refine readTwo_ends fun r r' w' hp => ?_
  by_cases hfail : (env.null w.reads || env.null (w.reads + 1)) = true
  · have hkept : kept env.null w.reads [b, b'] = got env.null w.reads [b, b'] := by
      unfold kept got got got
      cases h0 : env.null w.reads <;> cases h1 : env.null (w.reads + 1) <;> simp_all
    have hsome : r = none ∨ r' = none := by
      rw [hp.first, hp.second]
      rcases (Bool.or_eq_true _ _).mp hfail with h | h
      · exact .inl (if_pos h)
      · exact .inr (if_pos h)
    obtain ⟨a, w'', hrun, hback⟩ := hpart r r' w' hsome
    rw [hdropped hfail]
    exact .of_ok hrun (hp.got.passed hp.returns hback (by rw [hkept, List.nil_append]))
  · obtain ⟨h0, h1⟩ : env.null w.reads = false ∧ env.null (w.reads + 1) = false := by
      simpa using hfail
    have hgot : got env.null w.reads [b, b'] = [b, b'] := by simp [got, h0, h1]
    have hkept : kept env.null w.reads [b, b'] = [] := by rw [kept, hgot, if_pos rfl]
    have hne : b ≠ b' := by
      have hnodup := hp.returns.nodup
      rw [hgot] at hnodup
      simpa using hnodup
    obtain ⟨bs, hperm, a, w'', hrun, hback⟩ := hfull h0 h1 hne w' (hgot ▸ hp.got)
    have hr : r = some b := by rw [hp.first, h0]; rfl
    have hr' : r' = some b' := by rw [hp.second, h1]; rfl
    rw [hr, hr']
    exact .of_ok hrun (hp.got.passed hp.returns hback
      (by rw [hkept, hgot, List.append_nil]; exact hperm))

/-! ## 4. The functions of the log -/

/-- The process holds the buffer of a block, with `n` references at least. -/
structure Mine (env : Env) (n : Nat) (w : World) (b : BlockNo) : Prop where
  lock : (w.bufs b).lock = env.lock
  refcnt : n ≤ (w.bufs b).refcnt

theorem Mine.keep {n k : Nat} (h : Mine env n w b) (hback : GivenBack bs d w w') (hb : b ∉ bs)
    (hk : k + d.count b ≤ n) : Mine env k w' b where
  lock := (hback.lock b hb).trans h.lock
  refcnt := by
    have hsum := hback.refcnt b
    have hn := h.refcnt
    rw [List.count_eq_zero_of_not_mem hb] at hsum
    omega

theorem Mine.same {n : Nat} (h : Mine env n w b) (hback : GivenBack [] [] w w') :
    Mine env n w' b := h.keep hback List.not_mem_nil (Nat.le_refl n)

theorem Got.mine {n : Nat} (h : Got env bs n w w') (hb : b ∈ bs) : Mine env 1 w' b where
  lock := h.held b hb
  refcnt := by
    rw [h.refcnt]
    exact Nat.le_add_left_of_le (List.count_pos_iff.mpr hb)

/-- A call that gives nothing back, and then another one. -/
theorem Gives.andThen (h : Gives m w [] [])
    (hf : ∀ a w', GivenBack [] [] w w' → Gives (f a) w' bs d) : Gives (m >>= f) w bs d :=
  h.bind bs d hf

theorem gives_pure (a : α) (w : World) : Gives (pure a : BlockM α) w [] [] :=
  ⟨a, w, rfl, ⟨rfl, fun _ _ => rfl, fun _ hb => absurd hb List.not_mem_nil, fun _ => rfl⟩⟩

/-- `write_head`. -/
theorem writeHead_goes (env : Env) (l : Log) (w : World) :
    Goes env (writeHead env l) w [[l.header]] [] := by
  refine readOne_goes (gives_pure ()) fun w' hgot => ?_
  have hmine := hgot.mine (List.mem_singleton_self l.header)
  refine (getData_gives _ w').andThen fun data w₁ h₁ => ?_
  refine (setData_gives _ _ w₁).andThen fun _ w₂ h₂ => ?_
  have hmine₂ := (hmine.same h₁).same h₂
  refine (blockWrite_gives hmine₂.lock).andThen fun _ w₃ h₃ => ?_
  exact blockRelease_gives (hmine₂.same h₃).lock (hmine₂.same h₃).refcnt

/-- The blocks that `install_trans` unpins at an entry whose first read has the number `r`. -/
def unpinned (env : Env) (recovering : Bool) (r : Nat) (e : Entry) : List BlockNo :=
  if recovering || (env.null r || env.null (r + 1)) then [] else [e.home]

/-- The body of the loop of `install_trans`; a block it unpins is pinned. -/
theorem installEntry_goes (env : Env) (recovering : Bool) (e : Entry) (w : World)
    (hpinned : ∀ b, (unpinned env recovering w.reads e).count b ≤ (w.bufs b).refcnt) :
    Goes env (installEntry env recovering e) w [[e.slot, e.home]]
      (unpinned env recovering w.reads e) := by
  refine readTwo_goes (fun r r' w' hnone => ?part) (fun h0 h1 hne w' hgot => ?full) ?dropped
  case part =>
    rcases hnone with rfl | rfl
    · exact gives_pure () w'
    · cases r <;> exact gives_pure () w'
  case dropped => exact fun hfail => if_pos (by rw [hfail, Bool.or_true])
  case full =>
    have hslot := hgot.mine (b := e.slot) (by simp)
    have hhome := hgot.mine (b := e.home) (by simp)
    refine ⟨[e.slot, e.home], List.Perm.refl _, ?_⟩
    refine (getData_gives _ w').andThen fun data w₁ h₁ => ?_
    refine (setData_gives _ _ w₁).andThen fun _ w₂ h₂ => ?_
    have hhome₂ := (hhome.same h₁).same h₂
    refine (blockWrite_gives hhome₂.lock).andThen fun _ w₃ h₃ => ?_
    have hslot₃ := ((hslot.same h₁).same h₂).same h₃
    have hhome₃ := hhome₂.same h₃
    have hrelease : ∀ w₄, Mine env 1 w₄ e.slot → Mine env 1 w₄ e.home →
        Gives (blockRelease env e.slot >>= fun _ => blockRelease env e.home) w₄
          [e.slot, e.home] [] := fun w₄ hs hh => by
      refine (blockRelease_gives hs.lock hs.refcnt).bind [e.home] [] fun _ w₅ h₅ => ?_
      have hh₅ := hh.keep (k := 1) h₅ (by simpa using hne.symm) (Nat.le_refl 1)
      exact blockRelease_gives hh₅.lock hh₅.refcnt
    cases recovering with
    | true => exact hrelease w₃ hslot₃ hhome₃
    | false =>
      have hdropped : unpinned env false w.reads e = [e.home] := by simp [unpinned, h0, h1]
      rw [hdropped] at hpinned ⊢
      -- the pin of the log, and the reference of `block_read`
      have htwo : Mine env 2 w' e.home := by
        refine ⟨hhome.lock, ?_⟩
        have hpin := hpinned e.home
        rw [List.count_singleton_self] at hpin
        rw [hgot.refcnt, List.count_cons_of_ne hne, List.count_singleton_self]
        omega
      have htwo₃ := ((htwo.same h₁).same h₂).same h₃
      refine (bufUnpin_gives hhome₃.refcnt).bind [e.slot, e.home] []
        fun _ w₄ h₄ => hrelease w₄ ?_ ?_
      · exact hslot₃.keep h₄ List.not_mem_nil (by simp [hne.symm])
      · exact htwo₃.keep h₄ List.not_mem_nil (by simp)

/-- The entries, as groups of two buffers. -/
def pairs (es : List Entry) : List (List BlockNo) := es.map fun e => [e.slot, e.home]

/-- What a loop over the entries unpins. -/
def unpins (d : Nat → Entry → List BlockNo) : Nat → List Entry → List BlockNo
  | _, [] => []
  | r, e :: es => d r e ++ unpins d (r + 2) es

/-- **A loop over the entries.** -/
theorem entries_goes {body : Entry → BlockM Unit} {d : Nat → Entry → List BlockNo}
    (hbody : ∀ e w, (∀ b, (d w.reads e).count b ≤ (w.bufs b).refcnt) →
      Goes env (body e) w [[e.slot, e.home]] (d w.reads e)) :
    ∀ (es : List Entry) (w : World), (∀ b, (unpins d w.reads es).count b ≤ (w.bufs b).refcnt) →
      Goes env (forM es body) w (pairs es) (unpins d w.reads es) := by
  intro es
  induction es with
  | nil => exact fun w _ => Passed.refl w
  | cons e es ih =>
    intro w hpinned
    rw [List.forM_cons]
    have hsplit : ∀ b, (d w.reads e).count b + (unpins d (w.reads + 2) es).count b
        ≤ (w.bufs b).refcnt := fun b => by
      rw [← List.count_append]
      exact hpinned b
    refine (hbody e w fun b => Nat.le_of_add_right_le (hsplit b)).bind fun _ w' hpassed => ?_
    have hreads : w'.reads = w.reads + 2 := hpassed.reads
    rw [← hreads]
    refine ih w' fun b => ?_
    rw [hreads]
    have hrefcnt := hpassed.refcnt b
    have hpin := hsplit b
    omega

/-- A loop that unpins nothing. -/
theorem unpins_nil {d : Nat → Entry → List BlockNo} (hd : ∀ r e, d r e = []) (es : List Entry)
    (r : Nat) : unpins d r es = [] := by
  induction es generalizing r with
  | nil => rfl
  | cons e es ih => rw [unpins, hd, ih, List.nil_append]

/-- `install_trans`; the blocks it unpins are pinned. -/
theorem installTrans_goes (env : Env) (recovering : Bool) (l : Log) (w : World)
    (hpinned : ∀ b, (unpins (unpinned env recovering) w.reads (entries l)).count b
      ≤ (w.bufs b).refcnt) :
    Goes env (installTrans env recovering l) w (pairs (entries l))
      (unpins (unpinned env recovering) w.reads (entries l)) :=
  entries_goes (fun e w => installEntry_goes env recovering e w) (entries l) w hpinned

/-- In a recovery nothing is unpinned. -/
theorem installTrans_recovering (env : Env) (l : Log) (w : World) :
    Goes env (installTrans env true l) w (pairs (entries l)) [] := by
  have hnone := unpins_nil (d := unpinned env true) (fun _ _ => rfl) (entries l) w.reads
  have hgoes := installTrans_goes env true l w fun b => by
    rw [hnone]
    exact Nat.zero_le _
  rwa [hnone] at hgoes

/-- The entries leave nothing behind when the two reads of each fail together. -/
theorem keeps_pairs_iff {es : List Entry} {r : Nat} :
    keeps env.null r (pairs es) = [] ↔
      ∀ t < es.length, env.null (r + 2 * t) = env.null (r + 2 * t + 1) := keeps_pairs

/-! ## 5. A commit -/

theorem total_pairs (es : List Entry) : total (pairs es) = 2 * es.length := by
  induction es with
  | nil => rfl
  | cons e es ih =>
    rw [pairs, List.map_cons, total_cons, ← pairs, ih, List.length_cons]
    simp only [List.length_cons, List.length_nil]
    omega

/-- What `log_init` finds in the header, when the log in memory is empty: nothing, when both
`read_head`s get `NULL`; `none` when the list does not fit. -/
def announced (env : Env) (l : Log) (w : World) : Option (List BlockNo) :=
  if env.null w.reads && env.null (w.reads + 1) then some [] else getHead (w.view l.header)

/-- What `log_init` takes when it finds the list `lh`. -/
def initGroups (l : Log) (lh : List BlockNo) : List (List BlockNo) :=
  [[l.header]] ++ ([[l.header]] ++ (pairs (entries { l with lh := lh }) ++ [[l.header]]))

/-- What a recovery keeps of the list `lh`. -/
theorem keeps_init (l : Log) (lh : List BlockNo) (r : Nat) :
    keeps env.null r (initGroups l lh) = [] ↔
      ∀ t < lh.length, env.null (r + 2 + 2 * t) = env.null (r + 2 + 2 * t + 1) := by
  rw [initGroups, keeps_append, keeps_append, keeps_append, keeps_single, keeps_single,
    keeps_single, List.nil_append, List.nil_append, List.append_nil, keeps_pairs_iff,
    entries_length]
  rfl

/-- **`read_head`**, in its four ways to end. -/
theorem readHead_ends {l : Log} {Q : Log → World → Prop} {E : Halt → World → Prop}
    (hclean : w.CleanAt l.header)
    (hnone : env.null w.reads = true → ∀ w', Passed env [[l.header]] [] w w' →
      w'.CleanAt l.header → w'.view l.header = w.view l.header → Q l w')
    (hheld : ¬ Passes env.null w.reads w.Locked [[l.header]] → ∀ w', E .asleep w')
    (hover : env.null w.reads = false → getHead (w.view l.header) = none → ∀ w', E .outOfBounds w')
    (hsome : ∀ lh, env.null w.reads = false → getHead (w.view l.header) = some lh →
      ∀ w', Passed env [[l.header]] [] w w' → w'.CleanAt l.header →
        w'.view l.header = w.view l.header → Q { l with lh := lh } w') :
    Ends (readHead env l) w Q E := by
  cases hnull : env.null w.reads with
  | true =>
    refine .of_ok (bind_ok (blockRead_null l.header hnull)) (hnone hnull _ ?_ hclean rfl)
    refine .single (returns_single.mpr fun h => ?_) rfl (fun b => ?_) fun b => ?_
    · rw [hnull] at h
      cases h
    · rw [kept_single, or_iff_left List.not_mem_nil]
      rfl
    · rw [kept_single]
      rfl
  | false =>
    cases hlocked : (w.bufs l.header).lock.locked with
    | true =>
      refine .of_error (bind_error (blockRead_held hnull hlocked)) (hheld ?_ _)
      exact not_passes_single fun hr => returns_single.mp hr hnull hlocked
    | false =>
      cases hget : getHead (w.view l.header) with
      | none =>
        have hdata := fetched_data env hclean hlocked hnull
        refine .of_error ?_ (hover hnull hget ((w.tick 1).put l.header (w.fetched env l.header)))
        rw [readHead, bind_ok (blockRead_fetched hnull hlocked)]
        dsimp only
        rw [bind_ok (getData_run _ _), put_self, hdata, hget]
        rfl
      | some lh =>
        refine .of_ok (readHead_run env hnull hclean hlocked hget)
          (hsome lh hnull hget _ (.single ?_ rfl (fun b => ?_) fun b => ?_)
            (fun hzero => ?_) (view_put_self _ _ _ rfl))
        · refine returns_single.mpr fun _ h => ?_
          rw [World.Locked, hlocked] at h
          cases h
        · rw [kept_single, or_iff_left List.not_mem_nil]
          rcases eq_or_ne b l.header with rfl | hne
          · rw [World.Locked, World.Locked, put_self, hlocked]
            rfl
          · rw [World.Locked, put_of_ne _ hne]
            rfl
        · rw [kept_single]
          rcases eq_or_ne b l.header with rfl | hne
          · rw [put_self]
          · rw [put_of_ne _ hne]
            rfl
        · rw [put_self] at hzero
          exact (view_put_self _ _ _ rfl).trans (hclean hzero)

/-- **The two `read_head`s of `log_init`.** -/
theorem readHeads_ends {l : Log} (hnil : l.lh = []) (hclean : w.CleanAt l.header) :
    Ends (readHead env l >>= fun l₁ => readHead env l₁) w
      (fun l₂ w₂ => ∃ lh₂, l₂ = { l with lh := lh₂ } ∧ announced env l w = some lh₂ ∧
        Passed env ([[l.header]] ++ [[l.header]]) [] w w₂)
      fun e _ =>
        (e = .asleep ∧ ¬ Passes env.null w.reads w.Locked ([[l.header]] ++ [[l.header]])) ∨
        (e = .outOfBounds ∧ announced env l w = none) := by
  refine (readHead_ends (Q := fun l₁ w₁ => ∃ lh₁, l₁ = { l with lh := lh₁ } ∧
      (env.null w.reads = true ∧ lh₁ = [] ∨
        env.null w.reads = false ∧ getHead (w.view l.header) = some lh₁) ∧
      Passed env [[l.header]] [] w w₁ ∧ w₁.CleanAt l.header ∧ w₁.view l.header = w.view l.header)
    hclean ?none ?held ?full ?some).bind ?rest
  case none =>
    intro hnull w₁ hpassed hclean₁ hview
    exact ⟨[], by rw [← hnil], .inl ⟨hnull, rfl⟩, hpassed, hclean₁, hview⟩
  case held => exact fun hnot _ => .inl ⟨rfl, fun hp => hnot (passes_append.mp hp).1⟩
  case full =>
    intro hnull hget _
    refine .inr ⟨rfl, ?_⟩
    rw [announced, hnull]
    exact hget
  case some =>
    intro lh hnull hget w₁ hpassed hclean₁ hview
    exact ⟨lh, rfl, .inr ⟨hnull, hget⟩, hpassed, hclean₁, hview⟩
  case rest =>
    rintro l₁ w₁ ⟨lh₁, rfl, hfirst, hpassed₁, hclean₁, hview₁⟩
    have hreads₁ : w₁.reads = w.reads + 1 := hpassed₁.reads
    -- `recover_from_log` reads the header again
    refine readHead_ends (l := { l with lh := lh₁ }) hclean₁ ?none' ?held' ?full' ?some'
    case none' =>
      intro hnull w₂ hpassed₂ _ _
      rw [hreads₁] at hnull
      refine ⟨lh₁, rfl, ?_, hpassed₁.append hpassed₂⟩
      rw [announced, hnull, Bool.and_true]
      rcases hfirst with ⟨hnull₁, rfl⟩ | ⟨hnull₁, hget⟩
      · rw [hnull₁]
        rfl
      · rw [hnull₁]
        exact hget
    case held' =>
      refine fun hnot _ => .inl ⟨rfl, fun hp => hnot ?_⟩
      have hrest := (passes_append.mp hp).2
      rw [← hpassed₁.reads] at hrest
      exact (Passes.congr hpassed₁.locked).mpr hrest
    case full' =>
      intro hnull hget _
      rw [hreads₁] at hnull
      refine .inr ⟨rfl, ?_⟩
      rw [announced, hnull, Bool.and_false, ← hview₁]
      exact hget
    case some' =>
      intro lh₂ hnull hget w₂ hpassed₂ _ _
      rw [hreads₁] at hnull
      refine ⟨lh₂, rfl, ?_, hpassed₁.append hpassed₂⟩
      rw [announced, hnull, Bool.and_false, ← hview₁]
      exact hget

/-- **`log_init`**, over whatever header: it goes through, or sleeps on a buffer that is held, by
others or by itself, or reads a list that does not fit. -/
theorem logInit_ends (env : Env) {start size : Nat} {w : World} {l : Log}
    (hl : l = { start := start, size := size, outstanding := 0, committing := false, lh := [] })
    (hclean : w.CleanAt l.header) :
    Ends (logInit env start size) w
      (fun l' w' => l'.lh = [] ∧ ∃ lh, announced env l w = some lh ∧
        Passed env (initGroups l lh) [] w w')
      fun e _ =>
        (e = .asleep ∧
          ∀ lh, announced env l w = some lh →
            ¬ Passes env.null w.reads w.Locked (initGroups l lh)) ∨
        (e = .outOfBounds ∧ announced env l w = none) := by
  have hinit : logInit env start size = (readHead env l >>= fun l₁ => readHead env l₁) >>=
      fun l₂ => (installTrans env true l₂ >>= fun _ => writeHead env (emptied l₂)) >>= fun _ =>
        pure (emptied l₂) := by
    rw [logInit, ← hl]
    simp only [recoverFromLog, bind_assoc]
  rw [hinit]
  refine ((readHeads_ends (by rw [hl]) hclean).mono (fun _ _ h => h) ?held).bind ?rest
  case held =>
    rintro e _ (⟨rfl, hnot⟩ | hover)
    · refine .inl ⟨rfl, fun lh _ hp => hnot ?_⟩
      have hsplit : Passes env.null w.reads w.Locked (([[l.header]] ++ [[l.header]]) ++
          (pairs (entries { l with lh := lh }) ++ [[l.header]])) := hp
      exact (passes_append.mp hsplit).1
    · exact .inr hover
  case rest =>
    rintro l₂ w₂ ⟨lh₂, rfl, hannounced, hpassed₂⟩
    have hgoes : Goes env (installTrans env true { l with lh := lh₂ } >>= fun _ =>
        writeHead env (emptied { l with lh := lh₂ })) w₂
        (pairs (entries { l with lh := lh₂ }) ++ [[l.header]]) [] :=
      (installTrans_recovering env _ w₂).bind fun _ w₃ _ => writeHead_goes env _ w₃
    refine Ends.bind ((hgoes.after hpassed₂).mono (fun _ _ h => h) ?_) fun _ w₃ h =>
      ⟨rfl, lh₂, hannounced, h⟩
    rintro e _ ⟨rfl, hnot⟩
    refine .inl ⟨rfl, fun lh hlh hp => hnot ?_⟩
    rw [hannounced, Option.some.injEq] at hlh
    subst hlh
    exact hp

end Lithium.Wal
