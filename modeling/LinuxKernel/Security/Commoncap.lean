/-
Module: LinuxKernel.Security.Commoncap
Purpose: The capability rules of `security/commoncap.c` for a kernel with
  `CONFIG_SECURITY_FILE_CAPABILITIES`. Over a run the effective set stays within the permitted one, and a
  capability that is gone from all sets that `execve` uses does not come back.
Trusted boundary: human-reviewed spec
Main exports: capCapset, capTaskFixSetuid, capBprmSetCreds, taskStep, capTask_ordered
-/
import Mathlib

namespace LinuxKernel.Security

/-! ### `include/linux/capability.h` -/

/-- `kernel_cap_t`: the two words of `cap[]` in one. -/
abbrev KernelCap := BitVec 64

/-- `CAP_EMPTY_SET`. -/
def capEmptySet : KernelCap := 0

/-- `CAP_FULL_SET`. -/
def capFullSet : KernelCap := ~~~ 0

/-- `CAP_SETUID`. -/
def capSetuid : Nat := 7

/-- `CAP_SETPCAP`. -/
def capSetpcap : Nat := 8

/-- `CAP_FS_SET`: `CAP_CHOWN`, `CAP_DAC_OVERRIDE`, `CAP_DAC_READ_SEARCH`, `CAP_FOWNER`, `CAP_FSETID`,
`CAP_LINUX_IMMUTABLE`, `CAP_MKNOD` and `CAP_MAC_OVERRIDE`. -/
def capFsSet : KernelCap :=
  [0, 1, 2, 3, 4, 9, 27, 32].foldl (fun set cap => set ||| BitVec.twoPow 64 cap) 0

/-- `cap_raised(c, flag)`. -/
def capRaised (c : KernelCap) (flag : Nat) : Bool := c.getLsbD flag

/-- `cap_combine(a, b)`. -/
def capCombine (a b : KernelCap) : KernelCap := a ||| b

/-- `cap_intersect(a, b)`. -/
def capIntersect (a b : KernelCap) : KernelCap := a &&& b

/-- `cap_drop(a, drop)`. -/
def capDrop (a drop : KernelCap) : KernelCap := a &&& ~~~ drop

/-- `cap_isclear(a)`. -/
def capIsclear (a : KernelCap) : Bool := a = 0

/-- `cap_issubset(a, set)`. -/
def capIssubset (a set : KernelCap) : Bool := capIsclear (capDrop a set)

/-- `cap_drop_fs_set(a)`. -/
def capDropFsSet (a : KernelCap) : KernelCap := capDrop a capFsSet

/-- `cap_raise_fs_set(a, permitted)`. -/
def capRaiseFsSet (a permitted : KernelCap) : KernelCap := capCombine a (capIntersect permitted capFsSet)

/-! ### Credentials -/

/-- `SECURE_NOROOT`. -/
def secureNoroot : Nat := 0

/-- `SECURE_NO_SETUID_FIXUP`. -/
def secureNoSetuidFixup : Nat := 2

/-- `SECURE_KEEP_CAPS`. -/
def secureKeepCaps : Nat := 4

/-- The fields of `struct cred` that the rules use. -/
structure Cred where
  uid : Nat
  euid : Nat
  suid : Nat
  fsuid : Nat
  gid : Nat
  egid : Nat
  sgid : Nat
  fsgid : Nat
  securebits : BitVec 32
  capInheritable : KernelCap
  capPermitted : KernelCap
  capEffective : KernelCap
  capBset : KernelCap
deriving DecidableEq, Repr

/-- Error numbers; `other` is any the file system returns. -/
inductive Errno where
  | EPERM
  | EINVAL
  | ENODATA
  | ENOMEM
  | other (code : Nat)
deriving DecidableEq, Repr

/-- `issecure(X)`, which reads the credentials of the current task. -/
def issecure (current : Cred) (bit : Nat) : Bool := current.securebits.getLsbD bit

/-- `cap_capable(tsk, cred, cap, audit) == 0`. -/
def capCapable (cred : Cred) (cap : Nat) : Bool := capRaised cred.capEffective cap

/-- `cap_inh_is_capped()`. -/
def capInhIsCapped (current : Cred) : Bool := !capCapable current capSetpcap

/-- `cap_capset(new, old, effective, inheritable, permitted)`. -/
def capCapset (new old : Cred) (effective inheritable permitted : KernelCap) : Except Errno Cred :=
  if capInhIsCapped old ∧ ¬ capIssubset inheritable (capCombine old.capInheritable old.capPermitted) then
    .error .EPERM
  else if ¬ capIssubset inheritable (capCombine old.capInheritable old.capBset) then .error .EPERM
  else if ¬ capIssubset permitted old.capPermitted then .error .EPERM
  else if ¬ capIssubset effective permitted then .error .EPERM
  else .ok { new with capEffective := effective, capInheritable := inheritable, capPermitted := permitted }

/-- `cap_emulate_setxuid(new, old)`: its three rules one after the other. -/
def capEmulateSetxuid (new old : Cred) : Cred :=
  let new :=
    if (old.uid = 0 ∨ old.euid = 0 ∨ old.suid = 0) ∧ (new.uid ≠ 0 ∧ new.euid ≠ 0 ∧ new.suid ≠ 0) ∧
        ¬ issecure old secureKeepCaps then
      { new with capPermitted := capEmptySet, capEffective := capEmptySet }
    else new
  let new := if old.euid = 0 ∧ new.euid ≠ 0 then { new with capEffective := capEmptySet } else new
  if old.euid ≠ 0 ∧ new.euid = 0 then { new with capEffective := new.capPermitted } else new

/-- The `LSM_SETID_*` flags. -/
inductive LsmSetid where
  | ID
  | RE
  | RES
  | FS
  | other (flags : Nat)
deriving DecidableEq, Repr

/-- The branch of `LSM_SETID_FS`. -/
def fixFsuid (new old : Cred) : Cred :=
  let new :=
    if old.fsuid = 0 ∧ new.fsuid ≠ 0 then { new with capEffective := capDropFsSet new.capEffective } else new
  if old.fsuid ≠ 0 ∧ new.fsuid = 0 then
    { new with capEffective := capRaiseFsSet new.capEffective new.capPermitted }
  else new

/-- `cap_task_fix_setuid(new, old, flags)`. -/
def capTaskFixSetuid (new old : Cred) : LsmSetid → Except Errno Cred
  | .RE | .ID | .RES => .ok (if issecure old secureNoSetuidFixup then new else capEmulateSetxuid new old)
  | .FS => .ok (if issecure old secureNoSetuidFixup then new else fixFsuid new old)
  | .other _ => .error .EINVAL

/-! ### `execve` -/

/-- `struct cpu_vfs_cap_data`; `effective` is the bit `VFS_CAP_FLAGS_EFFECTIVE` of `magic_etc`. -/
structure CpuVfsCapData where
  effective : Bool
  permitted : KernelCap
  inheritable : KernelCap
deriving DecidableEq, Repr

/-- What `execve` reads of one file: the ids that `prepare_binprm` takes from it, `MNT_NOSUID`, what
`get_vfs_caps_from_disk` returns for it, and whether `audit_log_bprm_fcaps` fails. -/
structure Binprm where
  euid : Nat
  egid : Nat
  fileCapsEnabled : Bool
  mntNosuid : Bool
  vfsCaps : Except Errno CpuVfsCapData
  auditFails : Bool

/-- `bprm_clear_caps(bprm)`. -/
def bprmClearCaps (new : Cred) : Cred := { new with capPermitted := capEmptySet }

/-- `bprm_caps_from_vfs_caps(caps, bprm, effective)`: the error, the new credentials and `*effective`. -/
def bprmCapsFromVfsCaps (caps : CpuVfsCapData) (new : Cred) (effective : Bool) : Option Errno × Cred × Bool :=
  let effective := effective || caps.effective
  -- pP' = (X & fP) | (pI & fI)
  let new := { new with
    capPermitted := (new.capBset &&& caps.permitted) ||| (new.capInheritable &&& caps.inheritable) }
  let ret := if caps.permitted &&& ~~~ new.capPermitted ≠ 0 then some .EPERM else none
  (if effective then ret else none, new, effective)

/-- `get_file_caps(bprm, effective)`, which is called with `*effective` false. -/
def getFileCaps (bprm : Binprm) (new : Cred) : Option Errno × Cred × Bool :=
  let new := bprmClearCaps new
  if ¬ bprm.fileCapsEnabled then (none, new, false)
  else if bprm.mntNosuid then (none, new, false)
  else
    match bprm.vfsCaps with
    | .error .ENODATA => (none, new, false)
    | .error errno => (some errno, bprmClearCaps new, false)
    | .ok caps =>
      match bprmCapsFromVfsCaps caps new false with
      | (some errno, new, effective) => (some errno, bprmClearCaps new, effective)
      | (none, new, effective) => (none, new, effective)

/-- The part of `cap_bprm_set_creds` up to the label `skip`. -/
def rootCaps (old new : Cred) (effective : Bool) : Cred × Bool :=
  if issecure old secureNoroot then (new, effective)
  -- the legacy file capability is set: no privileges for a setuid root binary run by a non-root user
  else if effective ∧ new.uid ≠ 0 ∧ new.euid = 0 then (new, effective)
  else
    (if new.euid = 0 ∨ new.uid = 0 then
        { new with capPermitted := capCombine old.capBset old.capInheritable }
      else new,
      effective || decide (new.euid = 0))

/-- `LSM_UNSAFE_PTRACE_CAP`. -/
def lsmUnsafePtraceCap : BitVec 32 := 4

/-- `cap_limit_ptraced_target()`. -/
def capLimitPtracedTarget : Bool := true

/-- The downgrade of `cap_bprm_set_creds`; `unsafeFlags` is `bprm->unsafe`. -/
def downgrade (old new : Cred) (unsafeFlags : BitVec 32) : Cred :=
  if (new.euid ≠ old.uid ∨ new.egid ≠ old.gid ∨ ¬ capIssubset new.capPermitted old.capPermitted) ∧
      unsafeFlags &&& ~~~ lsmUnsafePtraceCap ≠ 0 then
    let new := if ¬ capCapable old capSetuid then { new with euid := new.uid, egid := new.gid } else new
    if capLimitPtracedTarget then
      { new with capPermitted := capIntersect new.capPermitted old.capPermitted }
    else new
  else new

/-- The effective set after `execve`; the first task keeps its own. -/
def execEffective (globalInit effective : Bool) (new : Cred) : KernelCap :=
  if globalInit then new.capEffective else if effective then new.capPermitted else capEmptySet

/-- `cap_bprm_set_creds(bprm)`, with the credentials of the current task and those prepared so far. -/
def capBprmSetCreds (globalInit : Bool) (unsafeFlags : BitVec 32) (bprm : Binprm) (old new : Cred) :
    Except Errno Cred :=
  match getFileCaps bprm new with
  | (some errno, _, _) => .error errno
  | (none, new, effective) =>
    let (new, effective) := rootCaps old new effective
    let new := downgrade old new unsafeFlags
    let new := { new with suid := new.euid, fsuid := new.euid, sgid := new.egid, fsgid := new.egid }
    let new := { new with capEffective := execEffective globalInit effective new }
    if ¬ capIsclear new.capEffective ∧
        (¬ capIssubset capFullSet new.capEffective ∨ new.euid ≠ 0 ∨ new.uid ≠ 0 ∨ issecure old secureNoroot) ∧
        bprm.auditFails then .error .ENOMEM
    else .ok { new with securebits := new.securebits &&& ~~~ BitVec.twoPow 32 secureKeepCaps }

/-- `prepare_binprm(bprm)`: the ids of the file, and the hook. A script is prepared first and its
interpreter after it, on the same credentials. -/
def prepareBinprm (globalInit : Bool) (unsafeFlags : BitVec 32) (old new : Cred) (bprm : Binprm) :
    Except Errno Cred :=
  capBprmSetCreds globalInit unsafeFlags bprm old { new with euid := bprm.euid, egid := bprm.egid }

/-- `execve`: the file and the interpreters it leads to, on a copy of the credentials of the task. -/
def execve (globalInit : Bool) (unsafeFlags : BitVec 32) (file : Binprm) (interpreters : List Binprm)
    (old : Cred) :
    Except Errno Cred :=
  (file :: interpreters).foldlM (prepareBinprm globalInit unsafeFlags old) old

/-! ### A task -/

/-- What a task does with its credentials. -/
inductive TaskAction where
  /-- `capset` -/
  | capset (effective inheritable permitted : KernelCap)
  /-- One of the `set*uid` calls: the ids it asks for, and its kind -/
  | setuid (flags : LsmSetid) (uid euid suid fsuid : Nat)
  /-- `prctl(PR_SET_SECUREBITS)` or `prctl(PR_SET_KEEPCAPS)` -/
  | securebits (bits : BitVec 32)
  | execve (unsafeFlags : BitVec 32) (file : Binprm) (interpreters : List Binprm)

/-- The new credentials of a call, or its error. -/
def TaskAction.run (globalInit : Bool) (old : Cred) : TaskAction → Except Errno Cred
  | .capset effective inheritable permitted => capCapset old old effective inheritable permitted
  | .setuid flags uid euid suid fsuid =>
    capTaskFixSetuid { old with uid, euid, suid, fsuid } old flags
  | .securebits bits => .ok { old with securebits := bits }
  | .execve unsafeFlags file interpreters => Security.execve globalInit unsafeFlags file interpreters old

/-- The credentials after a call: `commit_creds`, or `abort_creds` when it fails. -/
def taskStep (globalInit : Bool) (old : Cred) (action : TaskAction) : Cred :=
  match action.run globalInit old with
  | .ok new => new
  | .error _ => old

open BitVec Bool Prod

/-! ### Sets of capabilities -/

/-- Every capability of the first set is in the second. -/
def Within (a b : KernelCap) : Prop := ∀ cap, capRaised a cap = true → capRaised b cap = true

theorem Within.refl (a : KernelCap) : Within a a := fun _ raised => raised

variable {a b permitted : KernelCap} {cap : Nat} {new old result : Cred} {file : Binprm}
  {unsafeFlags : BitVec 32}

theorem Within.trans {c : KernelCap} (first : Within a b) (second : Within b c) : Within a c :=
  fun cap raised => second cap (first cap raised)

theorem Within.empty (a : KernelCap) : Within capEmptySet a := by
  intro cap raised
  rw [capRaised, capEmptySet, ofNat_eq_ofNat, getLsbD_zero] at raised
  cases raised

theorem capRaised_combine :
    capRaised (capCombine a b) cap = true ↔ capRaised a cap = true ∨ capRaised b cap = true := by
  rw [capRaised, capCombine, getLsbD_or, or_eq_true]
  rfl

theorem capRaised_intersect :
    capRaised (capIntersect a b) cap = true ↔ capRaised a cap = true ∧ capRaised b cap = true := by
  rw [capRaised, capIntersect, getLsbD_and, and_eq_true]
  rfl

theorem capIssubset_iff : capIssubset a b = true ↔ Within a b := by
  rw [capIssubset, capIsclear, capDrop, decide_eq_true_eq]
  constructor
  · intro clear cap raised
    have bit := congrArg (fun word : KernelCap => word.getLsbD cap) clear
    have low : cap < 64 := lt_of_getLsbD raised
    rw [ofNat_eq_ofNat] at bit
    simp only [getLsbD_and, getLsbD_not, low, getLsbD_zero] at bit
    rw [capRaised] at raised ⊢
    rw [raised] at bit
    exact not_inj bit
  · intro within
    apply eq_of_getLsbD_eq
    intro cap low
    rw [ofNat_eq_ofNat, getLsbD_zero, getLsbD_and, getLsbD_not, decide_eq_true low,
      Bool.true_and, Bool.and_eq_false_imp]
    intro raised
    have set : b.getLsbD cap = true := within cap raised
    rw [set, Bool.not_true]

theorem within_dropFsSet (a : KernelCap) : Within (capDropFsSet a) a := by
  intro cap raised
  rw [capRaised, capDropFsSet, capDrop, getLsbD_and, and_eq_true] at raised
  exact raised.1

theorem Within.raiseFsSet (within : Within a permitted) : Within (capRaiseFsSet a permitted) permitted := by
  intro cap raised
  rcases capRaised_combine.mp raised with old | new
  · exact within cap old
  · exact (capRaised_intersect.mp new).1

/-! ### `capset` and `set*uid` -/

/-- The order of the sets. -/
def Ordered (cred : Cred) : Prop := Within cred.capEffective cred.capPermitted

theorem capCapset_spec {effective inheritable : KernelCap}
    (ok : capCapset new old effective inheritable permitted = .ok result) :
    Ordered result ∧ Within result.capPermitted old.capPermitted := by
  unfold capCapset at ok
  split_ifs at ok with capped bounded fewer within
  obtain rfl := Except.ok.inj ok
  exact ⟨capIssubset_iff.mp within, capIssubset_iff.mp fewer⟩

theorem capEmulateSetxuid_spec (ordered : Ordered new) :
    Ordered (capEmulateSetxuid new old) ∧
      Within (capEmulateSetxuid new old).capPermitted new.capPermitted := by
  -- the rules after the first only write the effective set
  have rest (middle : Cred) (before : Ordered middle) (fewer : Within middle.capPermitted new.capPermitted) :
      let cleared := if old.euid = 0 ∧ middle.euid ≠ 0 then { middle with capEffective := capEmptySet }
        else middle
      let raised := if old.euid ≠ 0 ∧ cleared.euid = 0 then
        { cleared with capEffective := cleared.capPermitted } else cleared
      Ordered raised ∧ Within raised.capPermitted new.capPermitted := by
    dsimp only
    split_ifs
    · exact ⟨.refl _, fewer⟩
    · exact ⟨.empty _, fewer⟩
    · exact ⟨.refl _, fewer⟩
    · exact ⟨before, fewer⟩
  rw [capEmulateSetxuid]
  by_cases left : (old.uid = 0 ∨ old.euid = 0 ∨ old.suid = 0) ∧ (new.uid ≠ 0 ∧ new.euid ≠ 0 ∧ new.suid ≠ 0) ∧
      ¬ issecure old secureKeepCaps
  · simp only [if_pos left]
    exact rest { new with capPermitted := capEmptySet, capEffective := capEmptySet } (.refl _) (.empty _)
  · simp only [if_neg left]
    exact rest new ordered (.refl _)

theorem fixFsuid_spec (old : Cred) (ordered : Ordered new) :
    Ordered (fixFsuid new old) ∧ (fixFsuid new old).capPermitted = new.capPermitted := by
  unfold fixFsuid
  dsimp only
  split_ifs
  · exact ⟨((within_dropFsSet _).trans ordered).raiseFsSet, rfl⟩
  · exact ⟨(within_dropFsSet _).trans ordered, rfl⟩
  · exact ⟨ordered.raiseFsSet, rfl⟩
  · exact ⟨ordered, rfl⟩

theorem capTaskFixSetuid_spec {flags : LsmSetid} (ordered : Ordered new)
    (ok : capTaskFixSetuid new old flags = .ok result) :
    Ordered result ∧ Within result.capPermitted new.capPermitted := by
  have emulated : Ordered (if issecure old secureNoSetuidFixup then new else capEmulateSetxuid new old) ∧
      Within (if issecure old secureNoSetuidFixup then new else capEmulateSetxuid new old).capPermitted
        new.capPermitted := by
    split_ifs
    · exact ⟨ordered, .refl _⟩
    · exact capEmulateSetxuid_spec ordered
  cases flags with
  | ID | RE | RES => obtain rfl := Except.ok.inj ok; exact emulated
  | FS =>
    obtain rfl := Except.ok.inj ok
    split_ifs
    · exact ⟨ordered, .refl _⟩
    · obtain ⟨kept, same⟩ := fixFsuid_spec old ordered
      rw [same]
      exact ⟨kept, .refl _⟩
  | other _ => cases ok

/-! ### `execve` -/

/-- Credentials in preparation: no new permitted capability comes from outside the bounding set and the
inheritable set of the task, and these are as they were. -/
structure Prepared (old new : Cred) : Prop where
  bset : new.capBset = old.capBset
  inheritable : new.capInheritable = old.capInheritable
  permitted : Within new.capPermitted (capCombine old.capBset old.capInheritable)

section

variable (bset : new.capBset = old.capBset) (inheritable : new.capInheritable = old.capInheritable)
include bset inheritable

theorem Prepared.clear : Prepared old (bprmClearCaps new) :=
  ⟨bset, inheritable, .empty _⟩

theorem getFileCaps_spec {bprm : Binprm} {effective : Bool}
    (ok : getFileCaps bprm new = (none, result, effective)) : Prepared old result := by
  have cleared := Prepared.clear bset inheritable
  rw [getFileCaps] at ok
  split_ifs at ok with enabled nosuid
  · cases ok
    exact cleared
  · split at ok
    · cases ok
      exact cleared
    · cases ok
    · split at ok
      · cases ok
      · next ret =>
          cases ok
          obtain ⟨-, rfl, -⟩ := mk.inj ret |>.imp id mk.inj
          refine ⟨bset, inheritable, fun cap raised => ?_⟩
          rw [← bset, ← inheritable, capRaised_combine]
          simp only [capRaised, getLsbD_or, getLsbD_and, or_eq_true, and_eq_true] at raised
          exact raised.imp And.left And.left
  · cases ok
    exact cleared

end

theorem rootCaps_spec (effective : Bool) (prepared : Prepared old new) :
    Prepared old (rootCaps old new effective).1 := by
  unfold rootCaps
  split_ifs
  · exact prepared
  · exact prepared
  · exact ⟨prepared.bset, prepared.inheritable, .refl _⟩
  · exact prepared

theorem downgrade_spec (unsafeFlags : BitVec 32) (prepared : Prepared old new) :
    Prepared old (downgrade old new unsafeFlags) ∧ (unsafeFlags &&& ~~~ lsmUnsafePtraceCap ≠ 0 →
        Within (downgrade old new unsafeFlags).capPermitted old.capPermitted) := by
  rw [downgrade]
  by_cases limited : (new.euid ≠ old.uid ∨ new.egid ≠ old.gid ∨
    ¬ capIssubset new.capPermitted old.capPermitted) ∧
      unsafeFlags &&& ~~~ lsmUnsafePtraceCap ≠ 0
  · simp only [capLimitPtracedTarget]
    split_ifs
    all_goals
      refine ⟨⟨prepared.bset, prepared.inheritable, fun cap raised => ?_⟩, fun _ cap raised => ?_⟩
      · exact prepared.permitted cap (capRaised_intersect.mp raised).1
      · exact (capRaised_intersect.mp raised).2
  · rw [if_neg limited]
    refine ⟨prepared, fun beyond => capIssubset_iff.mp ?_⟩
    by_contra notSubset
    exact limited ⟨.inr (.inr notSubset), beyond⟩

/-- What `execve` makes of the sets. -/
structure Executed (old : Cred) (unsafeFlags : BitVec 32) (new : Cred) : Prop extends Prepared old new where
  ordered : Ordered new
  limited : unsafeFlags &&& ~~~ lsmUnsafePtraceCap ≠ 0 → Within new.capPermitted old.capPermitted

theorem capBprmSetCreds_spec {old new result : Cred} {bprm : Binprm} {unsafeFlags : BitVec 32}
    (bset : new.capBset = old.capBset) (inheritable : new.capInheritable = old.capInheritable)
    (ok : capBprmSetCreds false unsafeFlags bprm old new = .ok result) : Executed old unsafeFlags result := by
  unfold capBprmSetCreds at ok
  split at ok
  · cases ok
  · rename_i _ cleared effective files
    have prepared := rootCaps_spec effective (getFileCaps_spec bset inheritable files)
    obtain ⟨⟨sameBset, sameInheritable, permitted⟩, limited⟩ := downgrade_spec unsafeFlags prepared
    dsimp only at ok
    split_ifs at ok with audited
    obtain rfl := Except.ok.inj ok
    refine ⟨⟨sameBset, sameInheritable, permitted⟩, ?_, limited⟩
    rw [execEffective, if_neg Bool.false_ne_true]
    split_ifs
    · exact .refl _
    · exact .empty _

theorem prepareBinprm_spec (bset : new.capBset = old.capBset)
    (inheritable : new.capInheritable = old.capInheritable)
    (ok : prepareBinprm false unsafeFlags old new file = .ok result) : Executed old unsafeFlags result :=
  @capBprmSetCreds_spec _ { new with euid := file.euid, egid := file.egid } _ _ _ bset inheritable ok

theorem prepareAll_spec (files : List Binprm) (executed : Executed old unsafeFlags new)
    (ok : files.foldlM (prepareBinprm false unsafeFlags old) new = .ok result) :
      Executed old unsafeFlags result := by
  induction files generalizing new with
  | nil =>
    obtain rfl := Except.ok.inj ok
    exact executed
  | cons file files ih =>
    rw [List.foldlM_cons] at ok
    cases prepare : prepareBinprm false unsafeFlags old new file with
    | error errno => rw [prepare] at ok; cases ok
    | ok next =>
      rw [prepare] at ok
      exact ih (prepareBinprm_spec executed.bset executed.inheritable prepare) ok

theorem execve_spec {interpreters : List Binprm}
    (ok : execve false unsafeFlags file interpreters old = .ok result) : Executed old unsafeFlags result := by
  rw [execve, List.foldlM_cons] at ok
  cases prepare : prepareBinprm false unsafeFlags old old file with
  | error errno => rw [prepare] at ok; cases ok
  | ok next =>
    rw [prepare] at ok
    exact prepareAll_spec interpreters (prepareBinprm_spec rfl rfl prepare) ok

/-! ### A task -/

/-- The action is `execve`. -/
def TaskAction.IsExecve : TaskAction → Prop
  | .execve .. => True
  | _ => False

/-- The action is an `execve` that is unsafe beyond `LSM_UNSAFE_PTRACE_CAP`. -/
def TaskAction.IsUnsafeExecve : TaskAction → Prop
  | .execve unsafeFlags .. => unsafeFlags &&& ~~~ lsmUnsafePtraceCap ≠ 0
  | _ => False

/-- What one call may do with the sets. -/
structure StepOrdered (old new : Cred) (action : TaskAction) : Prop where
  ordered : Ordered new
  kept : ¬ action.IsExecve ∨ action.IsUnsafeExecve → Within new.capPermitted old.capPermitted
  gained : ∀ cap, capRaised new.capPermitted cap = true → ¬ capRaised old.capPermitted cap = true →
    capRaised old.capBset cap = true ∨ capRaised old.capInheritable cap = true

theorem StepOrdered.of_within {action : TaskAction} (ordered : Ordered new)
    (within : Within new.capPermitted old.capPermitted) : StepOrdered old new action :=
  ⟨ordered, fun _ => within, fun cap raised fresh => absurd (within cap raised) fresh⟩

theorem taskStep_ordered (ordered : Ordered old) (action : TaskAction) :
    StepOrdered old (taskStep false old action) action := by
  rw [taskStep]
  cases ran : action.run false old with
  | error errno => exact .of_within ordered (.refl _)
  | ok new =>
    cases action with
    | capset effective inheritable permitted =>
      obtain ⟨kept, within⟩ := capCapset_spec ran
      exact .of_within kept within
    | setuid flags uid euid suid fsuid =>
      have before : Ordered { old with uid, euid, suid, fsuid } := ordered
      obtain ⟨kept, within⟩ := capTaskFixSetuid_spec before ran
      exact .of_within kept within
    | securebits bits =>
      obtain rfl := Except.ok.inj ran
      exact .of_within ordered (.refl _)
    | execve unsafeFlags file interpreters =>
      have executed := execve_spec ran
      refine ⟨executed.ordered, fun which => ?_, fun cap raised _ => ?_⟩
      · rcases which with other | beyond
        · exact absurd trivial other
        · exact executed.limited beyond
      · exact capRaised_combine.mp (executed.permitted cap raised)

/-- In every run of a task that is not the first one, from credentials whose effective set is within the
permitted one, the sets stay ordered; the permitted set only grows at an `execve`, not at one that is unsafe
beyond `LSM_UNSAFE_PTRACE_CAP`, and only by capabilities of the bounding set and the inheritable set before
it. -/
theorem capTask_ordered (start : Cred) (ordered : Ordered start) (actions : List TaskAction)
    (action : TaskAction) :
    Ordered (actions.foldl (taskStep false) start) ∧
      StepOrdered (actions.foldl (taskStep false) start)
        (taskStep false (actions.foldl (taskStep false) start) action) action := by
  have last : Ordered (actions.foldl (taskStep false) start) := by
    induction actions generalizing start with
    | nil => exact ordered
    | cons first rest ih =>
      exact ih _ (taskStep_ordered ordered first).ordered
  exact ⟨last, taskStep_ordered last action⟩

/-- A plain user runs a file that has `CAP_SETUID` in its capabilities while it is being traced. -/
theorem capTask_ordered_traced :
    let start : Cred := ⟨1, 1, 1, 1, 1, 1, 1, 1, 0, 0, 0, 0, capFullSet⟩
    let action : TaskAction := .execve 2 ⟨1, 1, true, false, .ok ⟨true, twoPow 64 capSetuid, 0⟩, false⟩ []
    Ordered start ∧ StepOrdered start (taskStep false start action) action :=
  ⟨.refl _, (capTask_ordered ⟨1, 1, 1, 1, 1, 1, 1, 1, 0, 0, 0, 0, capFullSet⟩ (.refl _) []
    (.execve 2 ⟨1, 1, true, false, .ok ⟨true, twoPow 64 capSetuid, 0⟩, false⟩ [])).2⟩

/-! ### Capabilities that are gone -/

/-- `cap_prctl_drop(new, cap)`; `CAP_LAST_CAP` is 33. -/
def capPrctlDrop (old : Cred) (cap : Nat) : Except Errno Cred :=
  if ¬ capCapable old capSetpcap then .error .EPERM
  else if 33 < cap then .error .EINVAL
  else .ok { old with capBset := capDrop old.capBset (twoPow 64 cap) }

/-- A call of a task, `prctl(PR_CAPBSET_DROP)` among them. -/
def Calls (old new : Cred) : Prop :=
  (∃ action, new = taskStep false old action) ∨ ∃ cap, capPrctlDrop old cap = .ok new

/-- The capability is not permitted, and in neither of the sets that `execve` takes new ones from. -/
structure Gone (cap : Nat) (cred : Cred) : Prop where
  ordered : Ordered cred
  bset : ¬ capRaised cred.capBset cap
  inheritable : ¬ capRaised cred.capInheritable cap
  permitted : ¬ capRaised cred.capPermitted cap

/-- Only `capset` adds to the inheritable set, and no more than the bounding set has. -/
theorem taskStep_inheritable (old : Cred) (action : TaskAction) :
    (taskStep false old action).capBset = old.capBset ∧
    Within (taskStep false old action).capInheritable (capCombine old.capInheritable old.capBset) := by
  have kept : Within old.capInheritable (capCombine old.capInheritable old.capBset) :=
    fun _ raised => capRaised_combine.mpr (.inl raised)
  rw [taskStep]
  cases ran : action.run false old with
  | error errno => exact ⟨rfl, kept⟩
  | ok new =>
    cases action with
    | capset effective inheritable permitted =>
      rw [TaskAction.run, capCapset] at ran
      split_ifs at ran with capped bounded
      obtain rfl := Except.ok.inj ran
      exact ⟨rfl, capIssubset_iff.mp bounded⟩
    | setuid flags uid euid suid fsuid =>
      cases flags
      case other => cases ran
      all_goals
        obtain rfl := Except.ok.inj ran
        simp only [capEmulateSetxuid, fixFsuid]
        split_ifs <;> exact ⟨rfl, kept⟩
    | securebits bits =>
      obtain rfl := Except.ok.inj ran
      exact ⟨rfl, kept⟩
    | execve unsafeFlags file interpreters =>
      have executed := execve_spec ran
      exact ⟨executed.bset, executed.inheritable ▸ kept⟩

theorem Gone.call (gone : Gone cap old) (call : Calls old new) : Gone cap new := by
  obtain ⟨ordered, bset, inheritable, permitted⟩ := gone
  rcases call with ⟨action, rfl⟩ | ⟨dropped, ran⟩
  · obtain ⟨same, within⟩ := taskStep_inheritable old action
    have step := taskStep_ordered ordered action
    refine ⟨step.ordered, same ▸ bset, fun raised => ?_, fun raised => ?_⟩
    · exact (capRaised_combine.mp (within cap raised)).elim inheritable bset
    · exact (step.gained cap raised permitted).elim bset inheritable
  · rw [capPrctlDrop] at ran
    split_ifs at ran
    obtain rfl := Except.ok.inj ran
    refine ⟨ordered, fun raised => bset ?_, inheritable, permitted⟩
    rw [capRaised, capDrop, getLsbD_and, and_eq_true] at raised
    exact raised.1

/-- A capability that a task has dropped from its bounding set, its inheritable set and its permitted set is
never again in one of them or in the effective set, whatever calls follow and whatever files are
executed. -/
theorem capability_gone (old last : Cred) (cap : Nat) (gone : Gone cap old)
    (calls : Relation.ReflTransGen Calls old last) :
    Gone cap last ∧ ¬ capRaised last.capEffective cap := by
  have gone : Gone cap last := by
    induction calls with
    | refl => exact gone
    | tail _ call ih => exact ih.call call
  exact ⟨gone, fun raised => gone.permitted (gone.ordered cap raised)⟩

/-- A plain user whose bounding set has no `CAP_SETUID` runs a file that has it. -/
theorem capability_gone_setuid :
    ∃ last, Calls ⟨1, 1, 1, 1, 1, 1, 1, 1, 0, 0, 0, 0, 1⟩ last ∧ Gone capSetuid last := by
  refine ⟨_, .inl ⟨.execve 0 ⟨0, 1, true, false, .ok ⟨false, 128, 0⟩, false⟩ [], rfl⟩,
    (capability_gone ⟨1, 1, 1, 1, 1, 1, 1, 1, 0, 0, 0, 0, 1⟩ _ _ ⟨fun _ => id, ?_, ?_, ?_⟩
      (.single (.inl ⟨_, rfl⟩))).1⟩
  all_goals decide

end LinuxKernel.Security
