import RtXv6.InodeReferences

/-!
# What the system calls do to files

Every call keeps the account of references to inodes. From a state in which the files
without links are anchored, it makes one change of the files, which depends on the call,
removes files without links, and leaves those that remain anchored.
-/

namespace RtXv6.Fs

open Stateful Tally

/-- A call has changed the files, and removed some without links. -/
structure Performs (s next : Fs) (effects : (Nat → Option FileNode) → Prop) : Prop where
  accounts : Accounts next 0 []
  anchored : Anchored s.references s → Anchored next.references next ∧
    ∃ edited, effects edited ∧ Prunes edited next.files

/-- Files that are no directories may have been written. -/
def Scribbles (before after : Nat → Option FileNode) : Prop :=
  ∀ i, after i = before i ∨ ∃ node new, before i = some node ∧ after i = some new ∧
    node.type ≠ T_DIR ∧ new.type = node.type ∧ new.nlink = node.nlink

/-- What a call of a process may do to the files. -/
def Effects (s : Fs) (process : Slot) : Call → (Nat → Option FileNode) → Prop
  | .write _ _ _ _, edited => Scribbles s.files edited
  | .link _ new, edited => Effect s.files (s.start process new) new .link edited
  | .unlink path, edited => Effect s.files (s.start process path) path .unlink edited
  | .mkdir path, edited => Effect s.files (s.start process path) path .make edited
  | .mknod path _ _, edited => Effect s.files (s.start process path) path .make edited
  | .open path omode, edited =>
    if omode &&& O_CREATE = 0 then edited = s.files
    else Effect s.files (s.start process path) path .make edited
  | _, edited => edited = s.files

variable {s next : Fs}

theorem Moves.performs (moves : Moves s 0 next 0 []) :
    Performs s next fun edited => edited = s.files := by
  have anchored := moves.anchored
  rw [add_zero, add_zero] at anchored
  exact ⟨moves.accounts, fun anchors => ⟨anchored anchors, s.files, rfl, moves.prunes⟩⟩

variable {effect : (Nat → Option FileNode) → Prop}

theorem Settles.moves {made final : Fs} {ip : InodeId} (frame : Frame s made)
    (settles : Settles s.references s made (s.references + mark (some ip)) [ip] effect)
    (moves : Moves made (0 + mark (some ip)) final 0 []) : Performs s final effect := by
  refine ⟨moves.accounts, fun anchored => ?_⟩
  obtain ⟨anchors, edited, happens, prunes⟩ := settles.anchored anchored
  have later := moves.anchored
  rw [references_frame frame, zero_add, add_zero] at later
  exact ⟨later anchors, edited, happens, prunes.trans moves.prunes⟩

theorem Performs.begun {begun : Fs} {other : (Nat → Option FileNode) → Prop}
    (performs : Performs begun next other) (frame : Frame s begun)
    (calm : Calm s.references s begun s.references [])
    (same : ∀ edited, other edited → effect edited) : Performs s next effect := by
  refine ⟨performs.accounts, fun anchored => ?_⟩
  have before := performs.anchored
  rw [references_frame frame] at before
  obtain ⟨anchors, edited, happens, prunes⟩ := before (calm.anchored anchored)
  exact ⟨anchors, edited, same edited happens, prunes⟩

/-- A state from which a process may make calls. -/
structure Ready (s : Fs) (faults : FsFault → Prop) : Prop where
  accounts : Accounts s 0 []
  typed : Dense s.references s ∨ faults (.panic "ilock: no type")

section

variable {faults : FsFault → Prop} {s next : Fs}

theorem Ready.able (ready : Ready s faults) (process : Slot) :
    Able s s.references process faults := by
  have sound := ready.accounts.sound
  rw [add_zero] at sound
  exact ⟨sound, ready.accounts.inside, ready.accounts.root, fun _ => references_cwd, ready.typed⟩

theorem Ready.settles (ready : Ready s faults) (frame : Frame s next)
    (settles : Settles s.references s next s.references [] effect) : Performs s next effect := by
  have sound := settles.sound
  rw [← add_zero s.references] at sound
  refine ⟨ready.accounts.frame frame settles.stays settles.inside sound, fun anchored => ?_⟩
  rw [references_frame frame]
  exact settles.anchored anchored

variable (tolerant : Tolerant faults) (ready : Ready s faults) (process : Slot)
include tolerant ready

theorem sysLink_performs (old new : List UInt8) :
    Ends (fun _ next => Performs s next (Effects s process (.link old new))) faults
      (sysLink process old new) s :=
  ((sysLink_ends tolerant (ready.able process) old new).and
    ((sysLink_apart process old new).ends s)).imp fun _ _ both => ready.settles both.2 both.1

theorem sysUnlink_performs (path : List UInt8) :
    Ends (fun _ next => Performs s next (Effects s process (.unlink path))) faults
      (sysUnlink process path) s :=
  ((sysUnlink_ends tolerant (ready.able process) path).and
    ((sysUnlink_apart process path).ends s)).imp fun _ _ both => ready.settles both.2 both.1

theorem sysMake_performs (path : List UInt8) {type : Int16} (typed : type ≠ 0)
    (major minor : Int16) :
    Ends (fun _ next => Performs s next (Effect s.files (s.start process path) path .make)) faults
      (sysMake process path type major minor) s :=
  ((sysMake_ends tolerant (ready.able process) typed major minor path).and
    ((sysMake_apart process path type major minor).ends s)).imp
    fun _ _ both => ready.settles both.2 both.1

theorem sysDup_performs (fd : Fin NOFILE) :
    Ends (fun _ next => Performs s next (Effects s process (.dup fd))) faults
      (sysDup process fd) s := by
  have accounts := ready.accounts
  refine onFile_ends (Moves.refl accounts).performs fun f _ => ?_
  refine .andThen (fdalloc_ends (Ends.ret (Moves.refl accounts).performs) fun new _ => ?_)
  have moves := accounts.withOfile process new (some f)
  refine (filedup_moves tolerant moves.accounts f).seq fun _ next both => ?_
  exact .ret (moves.trans both.1).performs

theorem sysClose_performs (fd : Fin NOFILE) :
    Ends (fun _ next => Performs s next (Effects s process (.close fd))) faults
      (sysClose process fd) s := by
  have accounts := ready.accounts
  refine onFile_ends (Moves.refl accounts).performs fun f _ => ?_
  have moves := accounts.withOfile process fd none
  have closes := fileclose_moves tolerant moves.accounts f (fun _ => Int.le_refl 0) fun ip member => by
    cases member
  refine Ends.change (closes.seq fun _ next both => ?_)
  exact .ret (moves.trans both.1).performs

theorem sysPipe_performs :
    Ends (fun _ next => Performs s next (Effects s process .pipe)) faults (sysPipe process) s := by
  have bad : ∀ rf wf middle, Moves s 0 middle 0 [] →
      Ends (fun _ next => Performs s next (Effects s process .pipe)) faults (pipeBad rf wf)
        middle := by
    intro rf wf middle moves
    refine (closeBoth_moves tolerant moves.accounts rf wf).seq fun _ next closes => ?_
    exact .ret (moves.trans closes).performs
  refine (pipealloc_moves tolerant ready.accounts).seq fun made middle moves => ?_
  split
  · exact .ret moves.performs
  rename_i rf wf
  refine .andThen (fdalloc_ends (bad _ _ _ moves) fun fd0 _ => ?_)
  have first := moves.trans (moves.accounts.withOfile process fd0 (some rf))
  refine .andThen (fdalloc_ends ?_ fun fd1 _ => ?_)
  · exact Ends.change (bad _ _ _ (first.trans (first.accounts.withOfile process fd0 none)))
  · exact .ret (first.trans (first.accounts.withOfile process fd1 (some wf))).performs

theorem fork_performs {child : Slot} (free : (s.proc child).cwd = none) (memory : Bool) :
    Ends (fun _ next => Performs s next (Effects s process (.fork child memory))) faults
      (fork process child memory) s := by
  unfold fork
  by_cases found : memory = true
  · rw [if_pos found]
    have copies : Ends (fun _ next => Moves s 0 next 0 [] ∧
        ∀ other, (next.proc other).cwd = (s.proc other).cwd) faults
        ((List.finRange NOFILE).forM (forkFile process child)) s := by
      refine Ends.loop (fun _ next => Moves s 0 next 0 [] ∧
        ∀ other, (next.proc other).cwd = (s.proc other).cwd)
        ⟨Moves.refl ready.accounts, fun _ => rfl⟩ fun fd _ middle before => ?_
      refine (forkFile_moves tolerant before.1.accounts process child fd).imp fun _ next step => ?_
      exact ⟨before.1.trans step.1, fun other => (step.2 other).trans (before.2 other)⟩
    refine copies.seq ?_
    rintro _ copied ⟨moves, cwds⟩
    apply Ends.read
    refine .andThen (deref_ends (tolerant.other (by decide)) fun cwd target => ?_)
    have held : 0 < (copied.references + 0) cwd := by
      rw [add_zero]
      exact references_cwd target
    refine ((idup_ends moves.accounts.sound held).and ((idup_apart cwd).ends copied)).seq ?_
    rintro _ dup ⟨⟨rfl, calm⟩, frame⟩
    rename_i cwd
    have gain : Moves copied 0 dup (0 + mark (some cwd)) [] := by
      rw [add_assoc] at calm
      refine moves.accounts.calm frame calm (fun _ => Int.le_refl 0) fun ip had => ?_
      rw [← add_assoc]
      exact mark_more _ cwd ip had
    have enters : Moves dup (0 + mark (some cwd)) (dup.withCwd child (some cwd)) 0 [] := by
      refine gain.accounts.withCwd child (some cwd) ?_
      rw [frame.proc, cwds, free, mark_none, add_zero]
    exact Ends.change (Ends.ret ((moves.trans gain).trans enters).performs)
  · rw [if_neg found]
    exact .ret (Moves.refl ready.accounts).performs

theorem exit_performs :
    Ends (fun _ next => Performs s next (Effects s process .exit)) faults (exit process) s := by
  have closes : Ends (fun _ next => Moves s 0 next 0 []) faults
      ((List.finRange NOFILE).forM (exitFile process)) s := by
    refine Ends.loop (fun _ next => Moves s 0 next 0 []) (Moves.refl ready.accounts)
      fun fd _ middle before => ?_
    exact (exitFile_moves tolerant before.accounts process fd).imp
      fun _ next step => before.trans step
  refine closes.seq fun _ closed moves => ?_
  refine (beginOp_moves tolerant moves.accounts fun _ => Int.le_refl 0).seq ?_
  rintro _ begun ⟨begins, _⟩
  apply Ends.read
  refine .andThen (deref_ends (tolerant.other (by decide)) fun cwd target => ?_)
  refine leave_next tolerant begins.accounts (fun _ => Int.le_refl 0) target fun next leaves => ?_
  exact Ends.change (Ends.ret ((moves.trans begins).trans leaves).performs)

theorem beginOp_ready :
    Ends (fun _ next => Moves s 0 next 0 [] ∧ Frame s next ∧ Ready next faults ∧
      Calm s.references s next s.references []) faults beginOp s := by
  have able := ready.able 0
  refine ((beginOp_ends tolerant able.sound).and (beginOp_apart.ends s)).imp ?_
  rintro _ next ⟨calm, frame⟩
  have passes := calm.passes able.inside
  have moves : Moves s 0 next 0 [] := by
    refine ready.accounts.passes frame ?_ fun _ => Int.le_refl 0
    rw [add_zero]
    exact passes
  refine ⟨moves, frame, ⟨moves.accounts, ready.typed.imp_left fun dense => ?_⟩, calm⟩
  rw [references_frame frame]
  exact passes.dense dense

omit ready in
theorem Moves.finishes {middle : Fs} (moves : Moves s 0 middle 0 []) (r : Int32) :
    Ends (fun _ next => Performs s next fun edited => edited = s.files) faults
      (do endOp; pure r) middle := by
  refine (endOp_moves tolerant moves.accounts fun _ => Int.le_refl 0).seq fun _ next ends => ?_
  exact .ret (moves.trans ends.1).performs

omit ready in
/-- A call lets go of the inode that it has locked and ends its transaction. -/
theorem Moves.leaves {middle : Fs} {ip : InodeId} (moves : Moves s 0 middle (0 + mark (some ip)) [ip])
    (r : Int32) :
    Ends (fun _ next => Performs s next fun edited => edited = s.files) faults
      (do iunlockput ip; endOp; pure r) middle := by
  refine (iunlockput_moves tolerant moves.accounts (fun _ => Int.le_refl 0) List.not_mem_nil).seq ?_
  exact fun _ put puts => (moves.trans puts.1).finishes tolerant r

omit tolerant ready in
theorem extra_nonneg (ip : InodeId) : ∀ jp, 0 ≤ ((0 : InodeId → Int) + mark (some ip)) jp := by
  intro jp
  rw [zero_add]
  exact mark_nonneg _ _

omit ready in
/-- A path is looked up in a transaction, and the inode can be locked. -/
theorem namei_locks {begun : Fs} (begins : Moves s 0 begun 0 []) (ready : Ready begun faults)
    {path : List UInt8} {post : Option InodeId → Fs → Prop}
    (missing : ∀ next, Moves s 0 next 0 [] → post none next)
    (found : ∀ ip next, Ends (fun _ locked => Moves s 0 locked (0 + mark (some ip)) [ip]) faults
      (ilock ip) next → post (some ip) next) :
    Ends post faults (namei process path) begun := by
  have cases_ : Ends (fun value next => Frame begun next → post value next) faults
      (namei process path) begun := by
    refine namei_ends tolerant (ready.able process) ?_ ?_
    · intro next passes frame
      refine missing next (begins.trans (ready.accounts.passes frame ?_ fun _ => Int.le_refl 0))
      rw [add_zero]
      exact passes
    intro ip next passes _ present frame
    have moves : Moves begun 0 next (0 + mark (some ip)) [] := by
      refine ready.accounts.passes frame ?_ (extra_nonneg ip)
      rw [zero_add]
      exact passes
    have held : 0 < (next.references + (0 + mark (some ip))) ip := by
      rw [zero_add]
      exact mark_pos _ (references_nonneg next ip) (.inr rfl)
    refine found ip next ((ilock_moves tolerant moves.accounts (extra_nonneg ip) held
      (ready.typed.imp_left present)).imp fun _ locked lock => ?_)
    exact (begins.trans moves).trans lock.1
  exact (cases_.and ((namei_apart process path).ends begun)).imp fun _ _ both => both.1 both.2

theorem sysExec_performs (path : List UInt8) (stretches : List (UInt32 × UInt32)) (r : Int32) :
    Ends (fun _ next => Performs s next (Effects s process (.exec path stretches r))) faults
      (sysExec process path stretches r) s := by
  refine (beginOp_ready tolerant ready).seq ?_
  rintro _ begun ⟨begins, _, readyBegun, _⟩
  refine .andThen (namei_locks tolerant process begins readyBegun ?_ ?_)
  · exact fun missed moves => moves.finishes tolerant _
  intro ip found lock
  refine lock.seq fun _ locked arrives => ?_
  have reads : Ends (fun _ next => next = locked) faults
      (stretches.forM fun stretch => do
        let _ ← readi ip stretch.1 stretch.2
        pure ()) locked := by
    refine Ends.loop (fun _ next => next = locked) rfl fun stretch _ middle same => ?_
    rw [same]
    refine ((readi_ends arrives.accounts.sound.volume (arrives.accounts.sound.fresh_locked
      List.mem_cons_self) stretch.1 stretch.2).mono (fun _ _ unchanged => unchanged)
      fun _ never => never.elim).seq fun _ next unchanged => ?_
    exact .ret unchanged
  refine reads.seq fun _ read same => ?_
  rw [same]
  exact arrives.leaves tolerant _

theorem sysChdir_performs (path : List UInt8) :
    Ends (fun _ next => Performs s next (Effects s process (.chdir path))) faults
      (sysChdir process path) s := by
  refine (beginOp_ready tolerant ready).seq ?_
  rintro _ begun ⟨begins, _, readyBegun, _⟩
  refine .andThen (namei_locks tolerant process begins readyBegun ?_ ?_)
  · exact fun missed moves => moves.finishes tolerant _
  intro ip found lock
  refine lock.seq fun _ locked arrives => ?_
  have more := extra_nonneg ip
  apply Ends.read
  by_cases directory : (locked.icache ip).type ≠ T_DIR
  · rw [if_pos directory]
    exact arrives.leaves tolerant _
  rw [if_neg directory]
  refine (iunlock_moves tolerant arrives.accounts more List.not_mem_nil).seq ?_
  rintro _ unlocked ⟨unlock, frame⟩
  refine .andThen (deref_ends (tolerant.other (by decide)) fun old target => ?_)
  rw [← frame.proc] at target
  refine leave_next tolerant unlock.accounts more target fun next leaves => ?_
  have enters : Moves (next.withCwd process none) (0 + mark (some ip))
      ((next.withCwd process none).withCwd process (some ip)) 0 [] := by
    refine leaves.accounts.withCwd process (some ip) ?_
    rw [withCwd, withProc_self, mark_none, add_zero]
  have state : (next.withCwd process none).withCwd process (some ip) =
      next.withCwd process (some ip) := by
    unfold withCwd withProc
    simp only [Function.update_self, Function.update_idem]
  rw [state] at enters
  exact Ends.change (Ends.ret (((arrives.trans unlock).trans leaves).trans enters).performs)

theorem sysOpen_performs (path : List UInt8) (omode : UInt32) :
    Ends (fun _ next => Performs s next (Effects s process (.open path omode))) faults
      (sysOpen process path omode) s := by
  unfold Effects
  refine (beginOp_ready tolerant ready).seq ?_
  rintro _ begun ⟨begins, frame, readyBegun, calm⟩
  by_cases creates : omode &&& O_CREATE ≠ 0
  · rw [if_pos creates]
    simp only [if_neg creates]
    have able := readyBegun.able process
    have starts : begun.start process path = s.start process path :=
      (ready.able process).start_eq calm.stays frame.proc path
    have same : ∀ edited, Effect begun.files (begun.start process path) path .make edited →
        Effect s.files (s.start process path) path .make edited := by
      intro edited happens
      rw [calm.files, starts] at happens
      exact happens
    refine Apart.along (create_apart ..) (create_ends tolerant able (by decide) 0 0 ?_ ?_)
    · intro missed settles frameMissed
      refine ((endOp_ends tolerant settles.sound).and (endOp_apart.ends missed)).seq ?_
      rintro _ next ⟨ends, frameEnd⟩
      have settled := settles.calm ends (fun _ had => had) fun _ had => had
      exact .ret ((readyBegun.settles (frame_steps.trans frameMissed frameEnd) settled).begun
        frame calm same)
    intro ip made settles isFile frameMade
    have sound := settles.sound
    rw [← zero_add (mark (some ip))] at sound
    have accounts := readyBegun.accounts.frame frameMade settles.stays settles.inside sound
    have proper : omode &&& O_WRONLY ≠ 0 ∨ omode &&& O_RDWR ≠ 0 →
        (made.node ip).type ≠ T_DIR := by
      intro _
      rw [isFile]
      decide
    exact (openInode_moves tolerant accounts process proper).imp fun _ next opens =>
      (Settles.moves frameMade settles opens).begun frame calm same
  · rw [if_neg creates]
    simp only [if_pos (not_not.mp creates)]
    refine .andThen (namei_locks tolerant process begins readyBegun ?_ ?_)
    · exact fun missed moves => moves.finishes tolerant _
    intro ip found lock
    refine lock.seq fun _ locked arrives => ?_
    apply Ends.read
    by_cases refused : (locked.icache ip).type = T_DIR ∧ omode ≠ 0
    · rw [if_pos refused]
      exact arrives.leaves tolerant _
    rw [if_neg refused]
    have proper : omode &&& O_WRONLY ≠ 0 ∨ omode &&& O_RDWR ≠ 0 →
        (locked.node ip).type ≠ T_DIR := by
      intro writes directory
      refine refused ⟨directory, ?_⟩
      rintro rfl
      simp at writes
    exact (openInode_moves tolerant arrives.accounts process proper).imp
      fun _ next opens => (arrives.trans opens).performs

end

variable {f : FileId}

theorem Accounts.target (accounts : Accounts s 0 []) {ip : InodeId}
    (type : (s.ftable f).type = .inode) (target : (s.ftable f).ip = some ip) :
    0 < (s.references + 0) ip ∧ s.files (s.number ip) = some (s.node ip) ∧
      ((s.ftable f).writable = true → (s.node ip).type ≠ T_DIR) := by
  have held := accounts.held (show (s.ftable f).type ≠ .none by rw [type]; decide)
  have used : 0 < (s.references + 0) ip := by
    rw [add_zero]
    exact references_opened ((opened_some held type).trans target)
  obtain ⟨jp, equal, valid, proper⟩ := accounts.targets f held type
  rw [target] at equal
  cases equal
  exact ⟨used, accounts.sound.present used valid, proper⟩

variable {locks : List InodeId}

theorem advance_moves {faults : FsFault → Prop} {extra : InodeId → Int}
    (accounts : Accounts s extra locks) (held : 0 < (s.ftable f).ref) (r : Int32) :
    Ends (fun _ next => Moves s extra next extra locks ∧ next.files = s.files ∧
      next.proc = s.proc ∧ (next.ftable f).type = (s.ftable f).type ∧
      (next.ftable f).ip = (s.ftable f).ip ∧
      (next.ftable f).writable = (s.ftable f).writable) faults (advance f r) s := by
  unfold advance
  by_cases some : 0 < r
  · rw [if_pos some]
    have file : ∀ new : File, new.ref = (s.ftable f).ref → new.type = (s.ftable f).type →
        new.ip = (s.ftable f).ip → new.writable = (s.ftable f).writable →
        Moves s extra (s.withFile f new) extra locks ∧ (s.withFile f new).files = s.files ∧
        (s.withFile f new).proc = s.proc ∧
        ((s.withFile f new).ftable f).type = (s.ftable f).type ∧
        ((s.withFile f new).ftable f).ip = (s.ftable f).ip ∧
        ((s.withFile f new).ftable f).writable = (s.ftable f).writable := by
      intro new ref type ip writable
      rw [withFile_self]
      exact ⟨accounts.recount held (by rw [ref]; exact held) type ip writable, rfl, rfl, type, ip,
        writable⟩
    exact file _ rfl rfl rfl rfl
  · rw [if_neg some]
    exact .ret ⟨Moves.refl accounts, rfl, rfl, rfl, rfl, rfl⟩

/-- A file has been written through an open file. -/
structure Wrote (s next : Fs) (f : FileId) (locks : List InodeId) : Prop where
  accounts : Accounts next 0 locks
  anchored : Anchored s.references s → Anchored next.references next
  scribbles : Scribbles s.files next.files
  type : (next.ftable f).type = (s.ftable f).type
  ip : (next.ftable f).ip = (s.ftable f).ip
  writable : (next.ftable f).writable = (s.ftable f).writable

theorem Scribbles.refl (files : Nat → Option FileNode) : Scribbles files files := fun _ => .inl rfl

theorem Scribbles.trans {before middle after : Nat → Option FileNode}
    (first : Scribbles before middle) (second : Scribbles middle after) :
    Scribbles before after := by
  intro i
  rcases second i with same | ⟨node, new, present, written, file, type, nlink⟩
  · rw [same]
    exact first i
  rcases first i with same | ⟨old, mid, had, has, wasFile, midType, midNlink⟩
  · rw [same] at present
    exact .inr ⟨node, new, present, written, file, type, nlink⟩
  rw [has] at present
  cases present
  exact .inr ⟨old, new, had, written, wasFile, type.trans midType, nlink.trans midNlink⟩

theorem Wrote.trans {middle : Fs} {now : List InodeId} (first : Wrote s middle f locks)
    (second : Wrote middle next f now) : Wrote s next f now :=
  ⟨second.accounts, fun anchored => second.anchored (first.anchored anchored),
    first.scribbles.trans second.scribbles, second.type.trans first.type, second.ip.trans first.ip,
    second.writable.trans first.writable⟩

theorem Moves.wrote (moves : Moves s 0 next 0 locks) (files : next.files = s.files)
    (ftable : next.ftable = s.ftable) : Wrote s next f locks := by
  have anchored := moves.anchored
  rw [add_zero, add_zero] at anchored
  refine ⟨moves.accounts, anchored, ?_, by rw [ftable], by rw [ftable], by rw [ftable]⟩
  rw [files]
  exact Scribbles.refl _

section

variable {faults : FsFault → Prop} {s : Fs} (tolerant : Tolerant faults)
include tolerant

variable {f : FileId} {ip : InodeId}

theorem ilock_target (accounts : Accounts s 0 []) (type : (s.ftable f).type = .inode)
    (target : (s.ftable f).ip = some ip) :
    Ends (fun _ next => Moves s 0 next 0 [ip] ∧ Frame s next ∧
      Calm (s.references + 0) s next (s.references + 0) [ip]) faults (ilock ip) s := by
  have known := accounts.target type target
  have typed : s.files (s.number ip) ≠ none := by
    rw [known.2.1]
    exact Option.some_ne_none _
  refine ((ilock_ends tolerant accounts.sound known.1 (.inl typed)).and
    ((ilock_apart ip).ends s)).imp ?_
  rintro _ next ⟨⟨calm, _⟩, frame⟩
  exact ⟨accounts.calm frame calm (fun _ => Int.le_refl 0) fun _ had => had, frame, calm⟩

theorem writei_wrote (accounts : Accounts s 0 [ip]) (file : (s.node ip).type ≠ T_DIR) (f : FileId)
    (src : Nat → UInt8) (off n : UInt32) :
    Ends (fun _ next => Wrote s next f [ip] ∧ next.ftable = s.ftable) faults (writei ip src off n)
      s := by
  have member : ip ∈ [ip] := List.mem_cons_self
  refine ((writei_edits tolerant accounts.sound member src off n).and
    ((writei_apart ip src off n).ends s)).imp ?_
  rintro r next ⟨⟨unchanged, _⟩ | ⟨_, _, _, edits⟩, frame⟩
  · rw [unchanged]
    exact ⟨(Moves.refl accounts).wrote rfl rfl, rfl⟩
  · have fewer : ∀ jp, 0 < s.references jp → 0 < (s.references + 0) jp := by
      intro jp held
      rw [add_zero]
      exact held
    have inside := accounts.inside.edits edits fun directory => absurd directory file
    refine ⟨⟨accounts.frame frame (edits.stays.mono fewer) inside edits.sound, fun anchored => ?_, ?_,
      by rw [frame.ftable], by rw [frame.ftable], by rw [frame.ftable]⟩, frame.ftable⟩
    · have later := edits.anchored member
      rw [add_zero] at later
      rw [references_frame frame]
      exact later anchored
    · intro i
      rw [edits.files]
      by_cases own : i = s.number ip
      · rw [own, Function.update_self]
        exact .inr ⟨s.node ip, _, accounts.sound.present_locked member, rfl, file, rfl, rfl⟩
      · rw [Function.update_of_ne own]
        exact .inl rfl

section

variable (accounts : Accounts s 0 [])
include accounts

section

variable (type : (s.ftable f).type = .inode) (target : (s.ftable f).ip = some ip)
  (writable : (s.ftable f).writable = true) (src : Nat → UInt8)
include type target writable

theorem writeChunk_wrote (n1 : Nat) :
    Ends (fun _ next => Wrote s next f []) faults (writeChunk f ip src n1) s := by
  have zero : ∀ jp, 0 ≤ (0 : InodeId → Int) jp := fun _ => Int.le_refl 0
  refine ((beginOp_ends tolerant accounts.sound).and (beginOp_apart.ends s)).seq ?_
  rintro _ begun ⟨calm, frame⟩
  have begins : Wrote s begun f [] :=
    (accounts.calm frame calm zero fun _ had => had).wrote calm.files frame.ftable
  have typeBegun := begins.type.trans type
  have targetBegun := begins.ip.trans target
  have known := begins.accounts.target typeBegun targetBegun
  refine (ilock_target tolerant begins.accounts typeBegun targetBegun).seq ?_
  rintro _ locked ⟨lock, frameLock, calmLock⟩
  have locks := begins.trans (lock.wrote calmLock.files frameLock.ftable)
  have node := calmLock.node_eq known.1 List.mem_cons_self known.2.1
  have file : (locked.node ip).type ≠ T_DIR := by
    rw [node]
    exact known.2.2 (begins.writable.trans writable)
  apply Ends.read
  refine (writei_wrote tolerant locks.accounts file f src _ _).seq ?_
  rintro r written ⟨writes, ftable⟩
  have wrote := locks.trans writes
  have heldFile : 0 < (written.ftable f).ref := by
    refine wrote.accounts.held ?_
    rw [wrote.type, type]
    decide
  refine (advance_moves wrote.accounts heldFile r).seq ?_
  rintro _ advanced ⟨advances, files, _, sameType, sameIp, sameWritable⟩
  have anchoredAdvanced := advances.anchored
  rw [add_zero, add_zero] at anchoredAdvanced
  have advancing : Wrote written advanced f [ip] := by
    refine ⟨advances.accounts, anchoredAdvanced, ?_, sameType, sameIp, sameWritable⟩
    rw [files]
    exact Scribbles.refl _
  refine ((iunlock_ends tolerant advances.accounts.sound List.not_mem_nil).and
    ((iunlock_apart ip).ends advanced)).seq ?_
  rintro _ unlocked ⟨unlock, frameUnlock⟩
  have unlocks : Wrote advanced unlocked f [] :=
    (advances.accounts.calm frameUnlock unlock zero fun _ had => had).wrote unlock.files
      frameUnlock.ftable
  refine ((endOp_ends tolerant unlocks.accounts.sound).and (endOp_apart.ends unlocked)).seq ?_
  rintro _ next ⟨ends, frameEnd⟩
  have ending : Wrote unlocked next f [] :=
    (unlocks.accounts.calm frameEnd ends zero fun _ had => had).wrote ends.files frameEnd.ftable
  exact .ret (((wrote.trans advancing).trans unlocks).trans ending)

theorem writeChunks_wrote {fuel : Nat} (left : Nat) :
    Ends (fun _ next => Wrote s next f []) faults (writeChunks f ip fuel src left) s := by
  have nothing : Wrote s s f [] := (Moves.refl accounts).wrote rfl rfl
  induction fuel generalizing s src left with
  | zero => exact .ret nothing
  | succ fuel ih =>
    unfold writeChunks
    by_cases done : left = 0
    · rw [if_pos done]
      exact .ret nothing
    rw [if_neg done]
    refine (writeChunk_wrote tolerant accounts type target writable src _).seq
      fun r middle wrote => ?_
    by_cases failed : r < 0
    · rw [if_pos failed]
      exact .ret wrote
    rw [if_neg failed]
    by_cases whole : r = Int32.ofNat (min left chunk)
    · rw [if_pos whole]
      refine (ih wrote.accounts (wrote.type.trans type) (wrote.ip.trans target)
        (wrote.writable.trans writable) _ _ ((Moves.refl wrote.accounts).wrote rfl rfl)).imp ?_
      exact fun _ next rest => wrote.trans rest
    · rw [if_neg whole]
      exact tolerant.fail (by decide)

end

theorem filestat_moves (f : FileId) :
    Ends (fun _ next => Moves s 0 next 0 []) faults (filestat f) s := by
  apply Ends.read
  cases type : (s.ftable f).type with
  | none | pipe => exact .ret (Moves.refl accounts)
  | inode =>
    refine .andThen (deref_ends (tolerant.other (by decide)) fun ip target => ?_)
    refine (ilock_target tolerant accounts type target).seq fun _ locked lock => ?_
    refine (iunlock_moves tolerant lock.1.accounts (fun _ => Int.le_refl 0) List.not_mem_nil).seq
      fun _ next unlock => ?_
    exact .ret (lock.1.trans unlock.1)

theorem fileread_moves (f : FileId) (n transferred : Int32) :
    Ends (fun _ next => Moves s 0 next 0 []) faults (fileread f n transferred) s := by
  apply Ends.read
  by_cases refused : (s.ftable f).readable = false
  · rw [if_pos refused]
    exact .ret (Moves.refl accounts)
  rw [if_neg refused]
  cases type : (s.ftable f).type with
  | none => exact tolerant.fail (by decide)
  | pipe => exact .ret (Moves.refl accounts)
  | inode =>
    refine .andThen (deref_ends (tolerant.other (by decide)) fun ip target => ?_)
    refine (ilock_target tolerant accounts type target).seq fun _ locked lock => ?_
    have fresh := lock.1.accounts.sound.fresh_locked List.mem_cons_self
    have reads := readi_ends lock.1.accounts.sound.volume fresh (s.ftable f).off n.toUInt32
    refine (reads.mono (fun _ _ same => same) fun _ none => none.elim).seq ?_
    intro r again same
    rw [same]
    have held : 0 < (locked.ftable f).ref := by
      rw [lock.2.1.ftable]
      refine accounts.held ?_
      rw [type]
      decide
    refine (advance_moves lock.1.accounts held r.1).seq fun _ advanced advances => ?_
    refine (iunlock_moves tolerant advances.1.accounts (fun _ => Int.le_refl 0)
      List.not_mem_nil).seq fun _ next unlock => ?_
    exact .ret ((lock.1.trans advances.1).trans unlock.1)

theorem filewrite_performs (f : FileId) (src : Nat → UInt8) (n transferred : Int32) :
    Ends (fun _ next => Performs s next (Scribbles s.files)) faults
      (filewrite f src n transferred) s := by
  have nothing : Performs s s (Scribbles s.files) :=
    ⟨accounts, fun anchored => ⟨anchored, s.files, Scribbles.refl _, Prunes.refl _⟩⟩
  apply Ends.read
  by_cases refused : (s.ftable f).writable = false
  · rw [if_pos refused]
    exact .ret nothing
  rw [if_neg refused]
  cases type : (s.ftable f).type with
  | none => exact tolerant.fail (by decide)
  | pipe => exact .ret nothing
  | inode =>
    refine .andThen (deref_ends (tolerant.other (by decide)) fun ip target => ?_)
    refine (writeChunks_wrote tolerant accounts type target (Bool.eq_true_of_not_eq_false refused)
      src _).seq fun all next wrote => ?_
    have performs : Performs s next (Scribbles s.files) :=
      ⟨wrote.accounts, fun anchored =>
        ⟨wrote.anchored anchored, next.files, wrote.scribbles, Prunes.refl _⟩⟩
    by_cases whole : all = true ∧ 0 ≤ n
    · rw [if_pos whole]
      exact .ret performs
    · rw [if_neg whole]
      exact .ret performs

end

theorem perform_performs (ready : Ready s faults) (process : Slot) (call : Call)
    (enabled : s.Enabled process call) :
    Ends (fun _ next => Performs s next (Effects s process call)) faults (perform process call)
      s := by
  have accounts := ready.accounts
  cases call with
  | dup fd => exact sysDup_performs tolerant ready process fd
  | read fd n transferred =>
    exact onFile_ends (Moves.refl accounts).performs fun f _ =>
      (fileread_moves tolerant accounts f n transferred).imp fun _ _ moves => moves.performs
  | write fd src n transferred =>
    exact onFile_ends ⟨accounts, fun anchored => ⟨anchored, s.files, Scribbles.refl _, Prunes.refl _⟩⟩
      fun f _ => filewrite_performs tolerant accounts f src n transferred
  | close fd => exact sysClose_performs tolerant ready process fd
  | fstat fd =>
    exact onFile_ends (Moves.refl accounts).performs fun f _ =>
      (filestat_moves tolerant accounts f).imp fun _ _ moves => moves.performs
  | link old new => exact sysLink_performs tolerant ready process old new
  | unlink path => exact sysUnlink_performs tolerant ready process path
  | «open» path omode => exact sysOpen_performs tolerant ready process path omode
  | mkdir path => exact sysMake_performs tolerant ready process path (by decide) 0 0
  | mknod path major minor => exact sysMake_performs tolerant ready process path (by decide) major minor
  | chdir path => exact sysChdir_performs tolerant ready process path
  | exec path stretches r => exact sysExec_performs tolerant ready process path stretches r
  | pipe => exact sysPipe_performs tolerant ready process
  | fork child memory => exact fork_performs tolerant ready process enabled.2 memory
  | exit => exact exit_performs tolerant ready process

end

end RtXv6.Fs
