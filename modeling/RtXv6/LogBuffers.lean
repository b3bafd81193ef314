import RtXv6.CacheCoherence
import RtXv6.Log

/-!
# Buffers that a process holds

What a commit relies on while other processes use the cache: nobody else touches a
buffer that it holds, and only `bwrite` changes the disk. Each call into the cache is
described by the buffer it acts on, by the fact that it keeps all other held buffers, and,
for all calls but `bwrite` and `log_write`, by the fact that it is quiet: it changes
neither the disk nor which blocks are dirty, nor the logged data of a dirty block.
-/

namespace RtXv6.Buffers

open Function (update update_self update_of_ne)
open Outcome

/-- The step leaves the buffer as it is. -/
structure Kept (id : BufId) (s next : Buffers) : Prop where
  buf : next.cache.buf id = s.cache.buf id
  holder : next.holder id = s.holder id
  modified : next.modified id = s.modified id

/-- The step keeps every buffer that the process holds. -/
def Spares (process : Nat) (s next : Buffers) : Prop :=
  ∀ id, s.holder id = some process → Kept id s next

/-- What a step leaves of the disk and of the dirty buffers. -/
structure Quiet (s next : Buffers) : Prop where
  disk : next.disk = s.disk
  dirty : ∀ id, (next.cache.buf id).dirty = (s.cache.buf id).dirty
  dev : ∀ id, (s.cache.buf id).dirty = true → (next.cache.buf id).dev = (s.cache.buf id).dev
  blockno : ∀ id, (s.cache.buf id).dirty = true →
    (next.cache.buf id).blockno = (s.cache.buf id).blockno
  data : ∀ id, (s.cache.buf id).dirty = true → next.modified id = false →
    s.modified id = false ∧ (next.cache.buf id).data = (s.cache.buf id).data

/-- A process holds a buffer of a block, in `bread` or with its changes written. -/
structure Held (s : Buffers) (process : Nat) (id : BufId) (blockno : UInt32) : Prop where
  holder : s.holder id = some process
  carries : s.Carries id ROOTDEV blockno
  unmodified : s.modified id = false

/-- A process holds a buffer that `bread` has returned, with its changes written. -/
structure Ready (s : Buffers) (process : Nat) (id : BufId) (blockno : UInt32) : Prop
    extends Held s process id blockno where
  valid : (s.cache.buf id).valid = true

/-- A process holds a buffer of a block and has put data into it. -/
structure Loaded (s : Buffers) (process : Nat) (id : BufId) (blockno : UInt32) (data : Block) :
    Prop where
  holder : s.holder id = some process
  carries : s.Carries id ROOTDEV blockno
  valid : (s.cache.buf id).valid = true
  data : (s.cache.buf id).data = data

variable {s next : Buffers} {process : Nat} {id : BufId} {blockno : UInt32}

theorem Held.kept (held : Held s process id blockno) (kept : Kept id s next) :
    Held next process id blockno := by
  refine ⟨kept.holder.trans held.holder, ?_, kept.modified.trans held.unmodified⟩
  simpa only [Carries, kept.buf] using held.carries

theorem Ready.kept (ready : Ready s process id blockno) (kept : Kept id s next) :
    Ready next process id blockno :=
  ⟨ready.toHeld.kept kept, by rw [kept.buf, ready.valid]⟩

variable {data : Block}

theorem Loaded.kept (loaded : Loaded s process id blockno data) (kept : Kept id s next) :
    Loaded next process id blockno data := by
  refine ⟨kept.holder.trans loaded.holder, ?_, by rw [kept.buf, loaded.valid],
    by rw [kept.buf, loaded.data]⟩
  simpa only [Carries, kept.buf] using loaded.carries

theorem Held.different {otherId : BufId} {otherBlock : UInt32} (held : Held s process id blockno)
    (carries : s.Carries otherId ROOTDEV otherBlock) (different : blockno ≠ otherBlock) :
    id ≠ otherId := by
  rintro rfl
  exact different (held.carries.2.symm.trans carries.2)

theorem Coherent.free (coherent : Coherent s) (free : (s.cache.buf id).busy = false) :
    s.holder id = none ∧ s.modified id = false := by
  constructor
  · have unheld := coherent.held id
    rw [free] at unheld
    simpa using unheld
  · by_contra modified
    have busy := (coherent.working id (Bool.of_not_eq_false modified)).1
    simp [free] at busy

theorem Quiet.of_update (id : BufId) (record : Buf) (disk : next.disk = s.disk)
    (buf : next.cache.buf = update s.cache.buf id record)
    (others : ∀ other, other ≠ id → next.modified other = s.modified other)
    (dirty : record.dirty = (s.cache.buf id).dirty)
    (logged : (s.cache.buf id).dirty = true →
      record.dev = (s.cache.buf id).dev ∧ record.blockno = (s.cache.buf id).blockno ∧
      (next.modified id = false → s.modified id = false ∧ record.data = (s.cache.buf id).data)) :
    Quiet s next := by
  have here : next.cache.buf id = record := by rw [buf, update_self]
  have there : ∀ other, other ≠ id → next.cache.buf other = s.cache.buf other := by
    intro other different
    rw [buf, update_of_ne different]
  refine ⟨disk, ?_, ?_, ?_, ?_⟩
  · intro other
    by_cases same : other = id
    · rw [same, here, dirty]
    · rw [there other same]
  · intro other marked
    by_cases same : other = id
    · subst same
      rw [here, (logged marked).1]
    · rw [there other same]
  · intro other marked
    by_cases same : other = id
    · subst same
      rw [here, (logged marked).2.1]
    · rw [there other same]
  · intro other marked unmodified
    by_cases same : other = id
    · subst same
      rw [here]
      exact (logged marked).2.2 unmodified
    · rw [there other same]
      exact ⟨others other same ▸ unmodified, rfl⟩

theorem Quiet.refl (s : Buffers) : Quiet s s :=
  ⟨rfl, fun _ => rfl, fun _ _ => rfl, fun _ _ => rfl, fun _ _ unmodified => ⟨unmodified, rfl⟩⟩

/-- What a pass of `bget` does: it keeps every held buffer, and the one it returns carries
the block; a dirty one did so before. -/
theorem get_spec {got : Option BufId} (coherent : Coherent s) {dev : UInt32} (real : dev ≠ -1)
    (passed : s.get process dev blockno = .ok (next, got)) :
    Coherent next ∧ Quiet s next ∧
      (∀ other, (s.holder other).isSome = true → Kept other s next) ∧
      ∀ id, got = some id → next.holder id = some process ∧ next.Carries id dev blockno ∧
        next.modified id = false ∧
        ((s.cache.buf id).dirty = true → s.Carries id dev blockno) := by
  have keeps : ∀ {id : BufId} {record : Buf}, s.holder id = none →
      ∀ other, (s.holder other).isSome = true → Kept other s
        { s with
          cache := { s.cache with buf := update s.cache.buf id record }
          holder := update s.holder id (some process) } := by
    intro id record unheld other held
    have different : other ≠ id := by
      rintro rfl
      simp [unheld] at held
    exact ⟨update_of_ne different _ _, update_of_ne different _ _, rfl⟩
  rcases get_cases coherent passed with ⟨rfl, rfl⟩ | ⟨id, carries, free, rfl, rfl⟩ |
    ⟨id, free, clean, missed, rfl, rfl⟩
  · exact ⟨coherent, Quiet.refl next, fun _ _ => ⟨rfl, rfl, rfl⟩, by simp⟩
  · obtain ⟨unheld, unmodified⟩ := coherent.free free
    refine ⟨coherent.hit process (by rw [carries.1]; exact real), ?_, keeps unheld, ?_⟩
    · exact Quiet.of_update id _ rfl rfl (fun _ _ => rfl) rfl
        (fun _ => ⟨rfl, rfl, fun clear => ⟨clear, rfl⟩⟩)
    · rintro _ ⟨⟩
      refine ⟨update_self .., ?_, unmodified, fun _ => carries⟩
      simpa only [Carries, modify_self] using carries
  · obtain ⟨unheld, unmodified⟩ := coherent.free free
    refine ⟨coherent.recycles process real free clean missed, ?_, keeps unheld, ?_⟩
    · exact Quiet.of_update id _ rfl rfl (fun _ _ => rfl) clean.symm
        (fun dirty => by simp [clean] at dirty)
    · rintro _ ⟨⟩
      refine ⟨update_self .., ?_, unmodified, fun dirty => by simp [clean] at dirty⟩
      simp only [Carries, modify_self, and_self]

theorem get_root_spec {got : Option BufId} (coherent : Coherent s)
    (passed : s.get process ROOTDEV blockno = .ok (next, got)) :
    Coherent next ∧ Quiet s next ∧
      (∀ other, (s.holder other).isSome = true → Kept other s next) ∧
      ∀ id, got = some id → Held next process id blockno ∧
        ((s.cache.buf id).dirty = true → s.Carries id ROOTDEV blockno) := by
  obtain ⟨coherent', quiet, keeps, gets⟩ := get_spec coherent (by decide) passed
  refine ⟨coherent', quiet, keeps, ?_⟩
  intro id same
  obtain ⟨holder, carries, unmodified, carried⟩ := gets id same
  exact ⟨⟨holder, carries, unmodified⟩, carried⟩

variable {returned : Option BufId}

section

variable (coherent : Coherent s)
include coherent

theorem fill_spec (allowed : s.Allowed (.fill process id))
    (taken : s.take (.fill process id) = .ok (next, returned)) :
    Coherent next ∧ Quiet s next ∧ (∀ other, other ≠ id → Kept other s next) ∧
      next.holder = s.holder ∧ next.modified = s.modified ∧
      (next.cache.buf id).valid = true ∧
      ∀ dev blockno, s.Carries id dev blockno → next.Carries id dev blockno := by
  obtain ⟨busy, _, rfl⟩ := take_fill coherent allowed taken
  have clean : (s.cache.buf id).dirty = false := by
    by_contra dirty
    have valid := coherent.pinned id (Bool.of_not_eq_false dirty)
    simp [allowed.2] at valid
  refine ⟨coherent.fills busy, ?_, ?_, rfl, rfl, ?_, ?_⟩
  · exact Quiet.of_update id _ rfl rfl (fun _ _ => rfl) clean.symm
      (fun dirty => by simp [clean] at dirty)
  · intro other different
    exact ⟨update_of_ne different _ _, rfl, rfl⟩
  · rw [modify_self]
  · intro dev blockno carries
    simpa only [Carries, modify_self] using carries

theorem fetch_spec (held : Held s process id blockno) (fetched : s.fetch process id = .ok next) :
    Coherent next ∧ Quiet s next ∧ (∀ other, other ≠ id → Kept other s next) ∧
      Ready next process id blockno := by
  unfold fetch at fetched
  split at fetched
  · next valid =>
    obtain rfl := Except.ok.inj fetched
    exact ⟨coherent, Quiet.refl s, fun _ _ => ⟨rfl, rfl, rfl⟩, held, valid⟩
  next invalid =>
  obtain ⟨⟨after, returned⟩, taken, rfl⟩ := map_ok fetched
  obtain ⟨coherent', quiet, others, holders, marks, valid, carries⟩ := fill_spec coherent
    (show s.Allowed (.fill process id) from ⟨held.holder, by simpa using invalid⟩) taken
  exact ⟨coherent', quiet, others, ⟨holders ▸ held.holder, carries _ _ held.carries,
    marks ▸ held.unmodified⟩, valid⟩

theorem change_spec (holding : s.Holding process id)
    (taken : s.take (.change process id data) = .ok (next, returned)) :
    Coherent next ∧ Quiet s next ∧ (∀ other, other ≠ id → Kept other s next) ∧
      next.holder = s.holder ∧ (next.cache.buf id).valid = true ∧
      (next.cache.buf id).data = data ∧
      ∀ dev blockno, s.Carries id dev blockno → next.Carries id dev blockno := by
  simp only [take, Except.ok.injEq, Prod.mk.injEq] at taken
  obtain ⟨rfl, _⟩ := taken
  refine ⟨coherent.changes (coherent.holding holding) holding.2 data, ?_, ?_, rfl, ?_, ?_, ?_⟩
  · refine Quiet.of_update id _ rfl rfl ?_ rfl ?_
    · intro other different
      exact update_of_ne different _ _
    · intro _
      refine ⟨rfl, rfl, ?_⟩
      intro unmodified
      simp at unmodified
  · intro other different
    exact ⟨update_of_ne different _ _, rfl, update_of_ne different _ _⟩
  · rw [modify_self]
    exact holding.2
  · rw [modify_self]
  · intro dev blockno carries
    simpa only [Carries, modify_self] using carries

theorem brelse_spec (allowed : s.Allowed (.brelse process id))
    (taken : s.take (.brelse process id) = .ok (next, returned)) :
    Coherent next ∧ Quiet s next ∧ ∀ other, other ≠ id → Kept other s next := by
  obtain ⟨_, rfl⟩ := take_brelse coherent allowed.1 taken
  refine ⟨coherent.releases (coherent.holding allowed.1) allowed.1.2 allowed.2, ?_, ?_⟩
  · exact Quiet.of_update id _ rfl rfl (fun _ _ => rfl) rfl
      (fun _ => ⟨rfl, rfl, fun clear => ⟨clear, rfl⟩⟩)
  · intro other different
    exact ⟨update_of_ne different _ _, update_of_ne different _ _, rfl⟩

theorem put_spec (ready : Ready s process id blockno) (put : s.put process id data = .ok next) :
    Coherent next ∧ Quiet s next ∧ (∀ other, other ≠ id → Kept other s next) ∧
      Loaded next process id blockno data := by
  obtain ⟨⟨after, returned⟩, taken, rfl⟩ := map_ok put
  obtain ⟨coherent', quiet, others, holders, valid, filled, carries⟩ :=
    change_spec coherent ⟨ready.holder, ready.valid⟩ taken
  exact ⟨coherent', quiet, others, holders ▸ ready.holder, carries _ _ ready.carries, valid, filled⟩

/-- Writing a held buffer to its block: the buffer is clean and only the disk's block
changes. -/
theorem flush_spec (loaded : Loaded s process id blockno data)
    (flushed : s.flush process id = .ok next) :
    Coherent next ∧ (∀ other, other ≠ id → Kept other s next) ∧
      Ready next process id blockno ∧ (next.cache.buf id).dirty = false ∧
      next.disk ROOTDEV = update (s.disk ROOTDEV) blockno data := by
  obtain ⟨⟨after, returned⟩, taken, rfl⟩ := map_ok flushed
  have holding : s.Holding process id := ⟨loaded.holder, loaded.valid⟩
  obtain ⟨_, rfl⟩ := take_bwrite coherent holding taken
  refine ⟨coherent.writes (coherent.holding holding), ?_, ⟨⟨loaded.holder, ?_, ?_⟩, ?_⟩, ?_, ?_⟩
  · intro other different
    exact ⟨update_of_ne different _ _, rfl, update_of_ne different _ _⟩
  · simpa only [Carries, modify_self] using loaded.carries
  · exact update_self ..
  · rw [modify_self]
  · rw [modify_self]
  · simp only [loaded.carries.1, loaded.carries.2, loaded.data, assign, update_self]

theorem release_spec (ready : Ready s process id blockno)
    (released : s.release process id = .ok next) :
    Coherent next ∧ Quiet s next ∧ ∀ other, other ≠ id → Kept other s next := by
  obtain ⟨⟨after, returned⟩, taken, rfl⟩ := map_ok released
  exact brelse_spec coherent ⟨⟨ready.holder, ready.valid⟩, ready.unmodified⟩ taken

theorem pin_spec (holding : s.Holding process id)
    (taken : s.take (.logWrite process id) = .ok (next, returned)) :
    Coherent next ∧ (∀ other, other ≠ id → Kept other s next) ∧ next.disk = s.disk ∧
      next.cache.buf id = { s.cache.buf id with dirty := true } := by
  simp only [take, Except.ok.injEq, Prod.mk.injEq] at taken
  obtain ⟨rfl, _⟩ := taken
  refine ⟨coherent.pins (coherent.holding holding) holding.2, ?_, rfl, ?_⟩
  · intro other different
    exact ⟨update_of_ne different _ _, rfl, update_of_ne different _ _⟩
  · exact modify_self s.cache id (fun b => { b with dirty := true })

end

/-- A step of one process on its own buffer spares the others. -/
theorem spares_of_holder {other : Nat} (different : process ≠ other)
    (holder : s.holder id = some process) (others : ∀ buffer, buffer ≠ id → Kept buffer s next) :
    Spares other s next := by
  intro buffer held
  apply others
  rintro rfl
  exact different (Option.some.inj (holder.symm.trans held))

end RtXv6.Buffers
