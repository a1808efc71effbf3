/-
Module: LinuxKernel.Security.DeviceCgroup
Purpose: The device whitelist of a control group, `security/device_cgroup.c`: the rules written to it, the
  check against the whitelist of the parent group, and the two hooks that ask it. A deny changes every item
  by itself; an allow adds one item or widens the items of the same devices.
Trusted boundary: human-reviewed spec
Main exports: devcgroupUpdateAccess, Request, refused_after_deny_iff, allowed_within_parent_iff
-/
import Mathlib

namespace LinuxKernel.Security.DeviceCgroup

inductive Errno where
  | EPERM | EINVAL | ENOMEM
deriving DecidableEq, Repr

/-- The values of `type`: `DEV_BLOCK`, `DEV_CHAR` and `DEV_ALL`. -/
inductive DevType where
  | block | char | all
deriving DecidableEq, Repr

/-- The bits of `access`: `ACC_MKNOD`, `ACC_READ` and `ACC_WRITE`. -/
inductive Acc where
  | mknod | read | write
deriving DecidableEq, Repr

/-- `struct dev_whitelist_item`, with `access` as the set of its bits. -/
structure DevWhitelistItem where
  type : DevType
  major : BitVec 32
  minor : BitVec 32
  access : Finset Acc
deriving DecidableEq

abbrev Whitelist := List DevWhitelistItem

/-- `~0`, the number that stands for `*`. -/
def anyNumber : BitVec 32 := BitVec.allOnes 32

/-- `field == ~0 || field == value`. -/
def fits (field value : BitVec 32) : Bool := field = anyNumber || field = value

/-! ### Changing a whitelist -/

def DevWhitelistItem.sameDevices (walk wh : DevWhitelistItem) : Bool :=
  walk.type = wh.type && walk.major = wh.major && walk.minor = wh.minor

/-- `dev_whitelist_add(dev_cgroup, wh)`; `memory` says whether `kmemdup` succeeds. -/
def devWhitelistAdd (memory : Bool) (whitelist : Whitelist) (wh : DevWhitelistItem) :
    Except Errno Whitelist :=
  if memory then
    .ok (if whitelist.any (·.sameDevices wh) then
        whitelist.map fun walk =>
          if walk.sameDevices wh then { walk with access := walk.access ∪ wh.access } else walk
      else whitelist ++ [wh])
  else .error .ENOMEM

/-- Whether the loop of `dev_whitelist_rm` comes to the label `remove`. -/
def rmSelects (wh walk : DevWhitelistItem) : Bool :=
  walk.type = .all || (walk.type = wh.type && fits walk.major wh.major && fits walk.minor wh.minor)

/-- `dev_whitelist_rm(dev_cgroup, wh)`. -/
def devWhitelistRm (whitelist : Whitelist) (wh : DevWhitelistItem) : Whitelist :=
  whitelist.filterMap fun walk =>
    if rmSelects wh walk then
      let access := walk.access \ wh.access
      if access = ∅ then none else some { walk with access }
    else some walk

/-- `may_access_whitelist(c, refwh)`. -/
def mayAccessWhitelist (whitelist : Whitelist) (refwh : DevWhitelistItem) : Bool :=
  whitelist.any fun whitem =>
    whitem.type = .all || (!(refwh.type = .block && whitem.type ≠ .block) &&
        !(refwh.type = .char && whitem.type ≠ .char) &&
        fits whitem.major refwh.major && fits whitem.minor refwh.minor &&
        refwh.access ⊆ whitem.access)

/-- `parent_has_perm(childcg, wh)`; the top-level group has no parent. -/
def parentHasPerm (parent : Option Whitelist) (wh : DevWhitelistItem) : Bool :=
  match parent with
  | none => true
  | some whitelist => mayAccessWhitelist whitelist wh

/-! ### Reading a rule -/

/-- `isspace(c)`, the table of `lib/ctype.c`. -/
def isspace (c : Char) : Bool := (9 ≤ c.toNat && c.toNat ≤ 13) || c.toNat = 32 || c.toNat = 160

/-- `simple_strtoul(b, &endp, 10)` from `value` on, and the text at `endp`. -/
def simpleStrtoul (value : Nat) : List Char → Nat × List Char
  | [] => (value, [])
  | c :: b =>
    if c.isDigit then simpleStrtoul ((value * 10 + (c.toNat - '0'.toNat)) % 2 ^ 64) b
    else (value, c :: b)

/-- A major or minor number and the text behind it; the store to a `u32` cuts it off. -/
def readNumber : List Char → Except Errno (BitVec 32 × List Char)
  | [] => .error .EINVAL
  | c :: b =>
    if c = '*' then .ok (anyNumber, b)
    else if c.isDigit then
      let (value, endp) := simpleStrtoul 0 (c :: b)
      .ok (BitVec.ofNat 32 value, endp)
    else .error .EINVAL

/-- The loop over the access letters, `left` of them at most; a text ends with `'\0'`. -/
def readAccess : (left : Nat) → Finset Acc → List Char → Except Errno (Finset Acc)
  | 0, access, _ => .ok access
  | _ + 1, access, [] => .ok access
  | left + 1, access, c :: b =>
    if c = 'r' then readAccess left (insert .read access) b
    else if c = 'w' then readAccess left (insert .write access) b
    else if c = 'm' then readAccess left (insert .mknod access) b
    else if c = '\n' then .ok access
    else .error .EINVAL

/-- The rule behind its type letter. -/
def readDevices (type : DevType) (b : List Char) : Except Errno DevWhitelistItem := do
  let b ← expect isspace b
  let (major, b) ← readNumber b
  let b ← expect (· = ':') b
  let (minor, b) ← readNumber b
  let b ← expect isspace b
  .ok ⟨type, major, minor, ← readAccess 3 ∅ b⟩
where
  /-- One character of this kind. -/
  expect (kind : Char → Bool) : List Char → Except Errno (List Char)
    | [] => .error .EINVAL
    | c :: b => if kind c then .ok b else .error .EINVAL

/-- The part of `devcgroup_update_access` in front of the label `handle`. -/
def parseRule : List Char → Except Errno DevWhitelistItem
  | 'a' :: _ => .ok ⟨.all, anyNumber, anyNumber, {.mknod, .read, .write}⟩
  | 'b' :: b => readDevices .block b
  | 'c' :: b => readDevices .char b
  | _ => .error .EINVAL

/-- `DEVCG_ALLOW` and `DEVCG_DENY`. -/
inductive Filetype where
  | allow | deny
deriving DecidableEq, Repr

/-- `devcgroup_update_access(devcgroup, filetype, buffer)`; `capable` is `capable(CAP_SYS_ADMIN)`. -/
def devcgroupUpdateAccess (capable memory : Bool) (parent : Option Whitelist) (whitelist : Whitelist)
    (filetype : Filetype) (buffer : List Char) : Except Errno Whitelist := do
  if !capable then .error .EPERM
  else
    let wh ← parseRule buffer
    match filetype with
    | .allow =>
      if !parentHasPerm parent wh then .error .EPERM else devWhitelistAdd memory whitelist wh
    | .deny => .ok (devWhitelistRm whitelist wh)

/-! ### Asking a whitelist -/

/-- What the hooks distinguish in a mode: `S_ISBLK`, `S_ISCHR` or neither. -/
inductive Mode where
  | blk | chr | other
deriving DecidableEq, Repr

/-- `MAJOR(dev)`. -/
def majorOf (dev : BitVec 32) : BitVec 32 := dev >>> 20

/-- `MINOR(dev)`. -/
def minorOf (dev : BitVec 32) : BitVec 32 := dev &&& 0xfffff

/-- The tests of the hooks on type and numbers. -/
def DevWhitelistItem.covers (wh : DevWhitelistItem) (mode : Mode) (dev : BitVec 32) : Bool :=
  !(wh.type = .block && mode ≠ .blk) && !(wh.type = .char && mode ≠ .chr) &&
    fits wh.major (majorOf dev) && fits wh.minor (minorOf dev)

/-- Whether the loop of a hook comes to the label `found`. -/
def DevWhitelistItem.grants (wh : DevWhitelistItem) (mode : Mode) (dev : BitVec 32)
    (needs : Finset Acc) : Bool :=
  wh.type = .all || (wh.covers mode dev && needs ⊆ wh.access)

/-- The loop of the two hooks. -/
def searchWhitelist (whitelist : Whitelist) (mode : Mode) (dev : BitVec 32) (needs : Finset Acc) :
    Except Errno Unit :=
  if whitelist.any (·.grants mode dev needs) then .ok () else .error .EPERM

/-- The accesses `MAY_WRITE` (2) and `MAY_READ` (4) of a mask ask for. -/
def maskNeeds (mask : Nat) : Finset Acc :=
  (if mask.testBit 1 then {.write} else ∅) ∪ if mask.testBit 2 then {.read} else ∅

/-- `devcgroup_inode_permission(inode, mask)`. -/
def devcgroupInodePermission (whitelist : Whitelist) (mode : Mode) (rdev : BitVec 32) (mask : Nat) :
    Except Errno Unit :=
  if rdev = 0 then .ok ()
  else if mode = .other then .ok ()
  else searchWhitelist whitelist mode rdev (maskNeeds mask)

/-- `devcgroup_inode_mknod(mode, dev)`. -/
def devcgroupInodeMknod (whitelist : Whitelist) (mode : Mode) (dev : BitVec 32) : Except Errno Unit :=
  if mode = .other then .ok () else searchWhitelist whitelist mode dev {.mknod}

open List

/-- A call of one of the two hooks. -/
inductive Request where
  | permission (mode : Mode) (rdev : BitVec 32) (mask : Nat)
  | mknod (mode : Mode) (dev : BitVec 32)

namespace Request

def mode : Request → Mode
  | .permission mode _ _ => mode
  | .mknod mode _ => mode

def dev : Request → BitVec 32
  | .permission _ rdev _ => rdev
  | .mknod _ dev => dev

def needs : Request → Finset Acc
  | .permission _ _ mask => maskNeeds mask
  | .mknod _ _ => {.mknod}

/-- What the hook returns. -/
def answer (whitelist : Whitelist) : Request → Except Errno Unit
  | .permission mode rdev mask => devcgroupInodePermission whitelist mode rdev mask
  | .mknod mode dev => devcgroupInodeMknod whitelist mode dev

/-- Whether the hook looks at the whitelist: the file is a device, and `i_rdev` is not 0. -/
def checked : Request → Bool
  | .permission mode rdev _ => rdev ≠ 0 && mode ≠ .other
  | .mknod mode _ => mode ≠ .other

def GrantedBy (request : Request) (item : DevWhitelistItem) : Prop :=
  item.grants request.mode request.dev request.needs

end Request

variable {request : Request} {whitelist before after parent child : Whitelist}
  {rule walk item : DevWhitelistItem} {capable memory : Bool} {group : Option Whitelist}
  {filetype : Filetype} {buffer : List Char}

/-! ### Answers -/

theorem answer_eq : request.answer whitelist =
      if request.checked then searchWhitelist whitelist request.mode request.dev request.needs
      else .ok () := by
  cases request with
  | permission mode rdev mask =>
    rw [Request.answer, devcgroupInodePermission]
    by_cases none : rdev = 0 <;> cases mode <;> simp [Request.checked, none] <;> rfl
  | mknod mode dev => cases mode <;> rfl

theorem answer_refused : request.answer whitelist = .error .EPERM ↔
      request.checked ∧ ∀ item ∈ whitelist, ¬request.GrantedBy item := by
  rw [answer_eq, searchWhitelist]
  by_cases checked : request.checked <;> simp [checked, Request.GrantedBy]

theorem answer_ok : request.answer whitelist = .ok () ↔
      (request.checked → ∃ item ∈ whitelist, request.GrantedBy item) := by
  rw [answer_eq, searchWhitelist]
  by_cases checked : request.checked <;> simp [checked, Request.GrantedBy]

theorem grantedBy_iff : request.GrantedBy item ↔
      item.type = .all ∨ item.covers request.mode request.dev ∧ request.needs ⊆ item.access := by
  simp [Request.GrantedBy, DevWhitelistItem.grants]

theorem grantedBy_widen {access : Finset Acc} (granted : request.GrantedBy item)
    (wider : item.access ⊆ access) : request.GrantedBy { item with access } :=
  grantedBy_iff.mpr ((grantedBy_iff.mp granted).imp_right fun narrow => ⟨narrow.1, narrow.2.trans wider⟩)

/-! ### Denying -/

theorem mem_devWhitelistRm : item ∈ devWhitelistRm whitelist rule ↔
      ∃ walk ∈ whitelist, if rmSelects rule walk then
        ¬walk.access ⊆ rule.access ∧ item = { walk with access := walk.access \ rule.access }
      else item = walk := by
  simp only [devWhitelistRm, mem_filterMap]
  refine exists_congr fun walk => and_congr_right fun _ => ?_
  split
  · rw [← Finset.sdiff_eq_empty_iff_subset]
    by_cases empty : walk.access \ rule.access = ∅ <;> simp [empty, eq_comm]
  · simp [eq_comm]

/-- A deny grants nothing. -/
theorem grantedBy_of_mem_rm (left : item ∈ devWhitelistRm whitelist rule)
    (granted : request.GrantedBy item) : ∃ walk ∈ whitelist, request.GrantedBy walk := by
  obtain ⟨walk, mem, kept⟩ := mem_devWhitelistRm.mp left
  refine ⟨walk, mem, ?_⟩
  split at kept
  · obtain ⟨-, rfl⟩ := kept
    have whole := grantedBy_widen granted (Finset.sdiff_subset (s := walk.access))
    exact whole
  · exact kept ▸ granted

theorem update_ok (written : devcgroupUpdateAccess capable memory group before filetype buffer = .ok after) :
    ∃ rule, parseRule buffer = .ok rule ∧ match filetype with
      | .allow => parentHasPerm group rule ∧ devWhitelistAdd memory before rule = .ok after
      | .deny => devWhitelistRm before rule = after := by
  rw [devcgroupUpdateAccess] at written
  cases capable with
  | false => cases written
  | true =>
    cases parsed : parseRule buffer with
    | error => simp [parsed, bind, Except.bind] at written
    | ok rule =>
      refine ⟨rule, rfl, ?_⟩
      cases filetype with
      | allow =>
        cases perm : parentHasPerm group rule <;> simp_all [bind, Except.bind]
      | deny => simpa [parsed, bind, Except.bind] using written

/-- Successful writes to `devices.deny`, one after the other. -/
def Denials : Whitelist → Whitelist → Prop :=
  Relation.ReflTransGen fun before after => ∃ capable memory group buffer,
    devcgroupUpdateAccess capable memory group before .deny buffer = .ok after

theorem Denials.refused (denials : Denials before after) (refused : request.answer before = .error .EPERM) :
    request.answer after = .error .EPERM := by
  induction denials with
  | refl => exact refused
  | tail _ taken ih =>
    obtain ⟨_, _, _, _, written⟩ := taken
    obtain ⟨rule, -, removed⟩ := update_ok written
    obtain ⟨checked, none⟩ := answer_refused.mp ih
    refine answer_refused.mpr ⟨checked, fun item left granted => ?_⟩
    obtain ⟨walk, mem, granted⟩ := grantedBy_of_mem_rm (removed ▸ left) granted
    exact none walk mem granted

/-- A deny of `rule` does to an item what `request` asks for: an `a` item loses all that is left of its
access and so is removed, and another item that grants the request is one that `dev_whitelist_rm`
selects. -/
def Reached (rule : DevWhitelistItem) (request : Request) (walk : DevWhitelistItem) : Prop :=
  if walk.type = .all then walk.access ⊆ rule.access else request.GrantedBy walk → rmSelects rule walk

/-- What a deny of one of the needed accesses leaves of an item grants the request no more, if the
item is reached. -/
theorem refused_item_iff (needed : ∃ access ∈ request.needs, access ∈ rule.access) :
    (∀ item ∈ devWhitelistRm [walk] rule, ¬request.GrantedBy item) ↔ Reached rule request walk := by
  rw [Reached]
  simp only [mem_devWhitelistRm, mem_singleton, exists_eq_left]
  by_cases all : walk.type = .all
  · simp [all, rmSelects, grantedBy_iff]
  · by_cases selected : rmSelects rule walk
    · obtain ⟨access, need, denied⟩ := needed
      have lost : ¬request.needs ⊆ walk.access \ rule.access := fun within =>
        (Finset.mem_sdiff.mp (within need)).2 denied
      simp [all, selected, grantedBy_iff, lost]
    · simp [all, selected]

/-- A request that needs an access of a denied rule is refused from then on, through all denials that
follow, exactly if it is one that the hooks check and the deny reaches every item of the list. -/
theorem refused_after_deny_iff (capable memory : Bool) (group : Option Whitelist)
    (before after : Whitelist) (buffer : List Char) (rule : DevWhitelistItem) (request : Request)
    (parsed : parseRule buffer = .ok rule)
    (written : devcgroupUpdateAccess capable memory group before .deny buffer = .ok after)
    (needed : ∃ access ∈ request.needs, access ∈ rule.access) :
    (∀ last, Denials after last → request.answer last = .error .EPERM) ↔
      request.checked ∧ ∀ walk ∈ before, Reached rule request walk := by
  obtain ⟨rule', parsed', removed⟩ := update_ok written
  obtain rfl : rule = rule' := by simpa [parsed] using parsed'
  have now : (∀ last, Denials after last → request.answer last = .error .EPERM) ↔
      request.answer after = .error .EPERM :=
    ⟨fun always => always _ .refl, fun refused last denials => denials.refused refused⟩
  rw [now, answer_refused, ← show devWhitelistRm before rule = after from removed]
  simp only [← refused_item_iff needed, mem_devWhitelistRm, mem_singleton, exists_eq_left]
  exact and_congr_right fun _ => ⟨fun none walk mem item kept => none item ⟨walk, mem, kept⟩,
    fun none item ⟨walk, mem, kept⟩ => none walk mem item kept⟩

/-- The whitelist of the top-level group, as `devcgroup_create` makes it. -/
def topWhitelist : Whitelist := [⟨.all, anyNumber, anyNumber, {.mknod, .read, .write}⟩]

theorem refused_after_deny_all :
    parseRule ['a'] = .ok ⟨.all, anyNumber, anyNumber, {.mknod, .read, .write}⟩ ∧
      devcgroupUpdateAccess true true none topWhitelist .deny ['a'] = .ok [] ∧
      ∀ last, Denials [] last → (Request.mknod .chr 0x100003).answer last = .error .EPERM :=
  ⟨rfl, by decide, (refused_after_deny_iff true true none topWhitelist [] ['a'] _ (.mknod .chr 0x100003)
    rfl (by decide) ⟨.mknod, by decide, by decide⟩).mpr ⟨rfl, by simp [topWhitelist, Reached]⟩⟩

/-- The top-level group after a deny of reading one device: the `a` item keeps its other accesses, and
the hook takes it for all of them. -/
theorem read_allowed_after_deny :
    parseRule ['c', ' ', '1', ':', '3', ' ', 'r'] = .ok ⟨.char, 1, 3, {.read}⟩ ∧
      DevWhitelistItem.covers ⟨.char, 1, 3, {.read}⟩ .chr 0x100003 ∧ maskNeeds 4 = {.read} ∧
      ∃ after, devcgroupUpdateAccess true true none topWhitelist .deny
          ['c', ' ', '1', ':', '3', ' ', 'r'] = .ok after ∧
        devcgroupInodePermission after .chr 0x100003 4 = .ok () :=
  ⟨by decide, by decide, by decide, _, rfl, by decide⟩

/-! ### Allowing -/

theorem widened_eq (same : walk.sameDevices rule) (access : Finset Acc) :
    { walk with access } = { rule with access } := by
  simp_all [DevWhitelistItem.sameDevices]

/-- An item after an allow grants what it granted, and what the rule grants together with it if both
are about the same devices. -/
theorem grantedBy_walk_iff : request.GrantedBy
        (if walk.sameDevices rule then { walk with access := walk.access ∪ rule.access } else walk) ↔
      request.GrantedBy walk ∨ walk.sameDevices rule ∧
        request.GrantedBy { rule with access := walk.access ∪ rule.access } := by
  split
  case isTrue same =>
    rw [← widened_eq same]
    simpa [same] using fun granted => grantedBy_widen granted Finset.subset_union_left
  case isFalse other => simp [other]

/-- What an allow grants: what was granted, what the rule grants, and what the rule grants together with
an item of the same devices. -/
theorem granted_after_add (added : devWhitelistAdd memory before rule = .ok after) :
    (∃ item ∈ after, request.GrantedBy item) ↔
      (∃ item ∈ before, request.GrantedBy item) ∨ request.GrantedBy rule ∨
        ∃ walk ∈ before, walk.sameDevices rule ∧
          request.GrantedBy { rule with access := walk.access ∪ rule.access } := by
  rw [devWhitelistAdd] at added
  cases memory with
  | false => cases added
  | true =>
    simp only [if_true, Except.ok.injEq] at added
    subst added
    by_cases some : ∃ walk ∈ before, walk.sameDevices rule
    · have rule_or : request.GrantedBy rule → ∃ walk ∈ before, walk.sameDevices rule ∧
          request.GrantedBy { rule with access := walk.access ∪ rule.access } := fun granted =>
        some.imp fun walk ⟨mem, same⟩ =>
          ⟨mem, same, grantedBy_widen granted Finset.subset_union_right⟩
      simp only [any_eq_true.mpr some, if_true, mem_map, exists_exists_and_eq_and,
        grantedBy_walk_iff, and_or_left, exists_or, or_iff_right_of_imp rule_or]
    · have none : ¬∃ walk ∈ before, walk.sameDevices rule ∧
          request.GrantedBy { rule with access := walk.access ∪ rule.access } :=
        fun ⟨walk, mem, same, _⟩ => some ⟨walk, mem, same⟩
      rw [if_neg fun found => some (any_eq_true.mp found)]
      simp [none, or_and_right, exists_or]

/-- The requests that a rule can newly permit without a check of the parent: all of them for the rule
`a`, and those that need accesses of the rule together with accesses of an item of the same devices. -/
def Endangered (child : Whitelist) (rule : DevWhitelistItem) (request : Request) : Prop :=
  rule.type = .all ∨ rule.covers request.mode request.dev ∧ ¬request.needs ⊆ rule.access ∧
      ∃ walk ∈ child, walk.sameDevices rule ∧ request.needs ⊆ walk.access ∪ rule.access

theorem fits_trans {field middle value : BitVec 32} (outer : fits field middle)
    (inner : fits middle value) : fits field value := by
  simp only [fits, Bool.or_eq_true, decide_eq_true_eq] at outer inner ⊢
  rcases outer with any | rfl
  · exact .inl any
  · exact inner

/-- A rule for one type of devices that passes the check of the parent is granted by it. -/
theorem parent_grants (perm : mayAccessWhitelist parent rule) (typed : rule.type ≠ .all)
    (covers : rule.covers request.mode request.dev) (within : request.needs ⊆ rule.access) :
    ∃ item ∈ parent, request.GrantedBy item := by
  obtain ⟨item, mem, passed⟩ := any_eq_true.mp perm
  refine ⟨item, mem, grantedBy_iff.mpr ?_⟩
  simp only [Bool.or_eq_true, Bool.and_eq_true, decide_eq_true_eq] at passed
  refine passed.imp_right fun ⟨⟨⟨⟨block, char⟩, major⟩, minor⟩, access⟩ => ⟨?_, within.trans access⟩
  simp only [DevWhitelistItem.covers, Bool.and_eq_true] at covers ⊢
  refine ⟨⟨?_, fits_trans major covers.1.2⟩, fits_trans minor covers.2⟩
  cases own : rule.type <;> cases whose : item.type <;> simp_all

/-- What an allow newly permits to a child its parent permits as well exactly if this holds of the
endangered requests. -/
theorem allowed_within_parent_iff (capable memory : Bool) (parent child after : Whitelist)
    (buffer : List Char) (rule : DevWhitelistItem) (parsed : parseRule buffer = .ok rule)
    (written : devcgroupUpdateAccess capable memory (some parent) child .allow buffer = .ok after) :
    (∀ request : Request, request.answer after = .ok () → request.answer child ≠ .ok () →
        request.answer parent = .ok ()) ↔
      ∀ request, Endangered child rule request →
        request.answer child = .ok () ∨ request.answer parent = .ok () := by
  obtain ⟨rule', parsed', perm, added⟩ := update_ok written
  obtain rfl : rule = rule' := by simpa [parsed] using parsed'
  refine forall_congr' fun request => ?_
  by_cases before : request.answer child = .ok ()
  · simp [before]
  obtain ⟨checked, none⟩ : request.checked ∧ ∀ item ∈ child, ¬request.GrantedBy item := by
    simpa [answer_ok] using before
  simp only [before, not_false_eq_true, forall_const, false_or, ne_eq, answer_ok, checked,
    granted_after_add added]
  constructor
  · rintro within (all | ⟨covers, -, walk, mem, same, split⟩)
    · exact within (.inr (.inl (grantedBy_iff.mpr (.inl all))))
    · exact within (.inr (.inr ⟨walk, mem, same, grantedBy_iff.mpr (.inr ⟨covers, split⟩)⟩))
  · intro guarded granted
    by_cases all : rule.type = .all
    · exact guarded (.inl all)
    rcases granted with ⟨item, mem, granted⟩ | granted | ⟨walk, mem, same, granted⟩
    · exact absurd granted (none item mem)
    · obtain ⟨covers, within⟩ := (grantedBy_iff.mp granted).resolve_left all
      exact parent_grants perm all covers within
    · obtain ⟨covers, split⟩ := (grantedBy_iff.mp granted).resolve_left all
      by_cases within : request.needs ⊆ rule.access
      · exact parent_grants perm all covers within
      · exact guarded (.inr ⟨covers, within, walk, mem, same, split⟩)

theorem allowed_within_top :
    ∃ after, devcgroupUpdateAccess true true (some topWhitelist) [] .allow
        ['c', ' ', '*', ':', '*', ' ', 'r'] = .ok after ∧
      ∀ request : Request, request.answer after = .ok () → request.answer [] ≠ .ok () →
        request.answer topWhitelist = .ok () :=
  ⟨_, rfl, (allowed_within_parent_iff true true topWhitelist [] _ ['c', ' ', '*', ':', '*', ' ', 'r'] _
    rfl rfl).mpr fun _ _ => .inr (answer_ok.mpr fun _ => ⟨_, mem_cons_self, rfl⟩)⟩

/-- A parent with character devices only lets its child have the rule `a`, and with it block devices. -/
theorem block_allowed_beyond_parent :
    ∃ after, devcgroupUpdateAccess true true
        (some [⟨.char, anyNumber, anyNumber, {.mknod, .read, .write}⟩])
        [⟨.char, anyNumber, anyNumber, {.mknod, .read, .write}⟩] .allow ['a'] = .ok after ∧
      devcgroupInodePermission after .blk 0x800000 4 = .ok () ∧
      devcgroupInodePermission [⟨.char, anyNumber, anyNumber, {.mknod, .read, .write}⟩] .blk 0x800000 4 =
        .error .EPERM :=
  ⟨_, rfl, by decide, by decide⟩

end LinuxKernel.Security.DeviceCgroup
