import MoacVnode.Lib.Run
import MoacVnode.NetworkRelay.Notifications

/-!
# Cached roles

`GetSCSRole` asks the contract of a subchain for the role of an SCS and keeps the answer for
`maxRoleCache` blocks.
-/

namespace MoacVnode.NetworkRelay

open MoacVnode.Core Lib Function

def maxRoleCache : Nat := 20

/-- The cached roles and the number of the current block. -/
structure RoleState where
  roles : ScsRoleCache := fun _ _ => none
  blockNumber : Nat

/-- A cached role that has to be asked for again. -/
def shouldUpdateRoleCache (curNumber : Nat) (roleInfo : RoleCache) : Bool :=
  roleInfo.number = 0 ∨ curNumber > (roleInfo.number + maxRoleCache) % uint64Size ∨
    curNumber < maxRoleCache

variable (state : RoleState)

def RoleState.asks (subchainId scsId : Address) : Bool :=
  match state.roles scsId subchainId with
  | none => true
  | some roleInfo =>
    decide (roleInfo.role ≠ .lockScs) && shouldUpdateRoleCache state.blockNumber roleInfo

def RoleState.updateScsRoleCache (scsId subchainId : Address) (role : ScsKind) : RoleState :=
  { state with
    roles := update state.roles scsId
      (update (state.roles scsId) subchainId (some ⟨role, state.blockNumber⟩)) }

/-- `GetSCSRole`, with what the handler reports if it is asked. -/
def RoleState.getSCSRole (subchainId scsId : Address) (reported : ScsKind) : ScsKind × RoleState :=
  if state.asks subchainId scsId then (reported, state.updateScsRoleCache scsId subchainId reported)
  else (((state.roles scsId subchainId).map RoleCache.role).getD .none, state)

/-- What `Priority` decides before it asks for the role: the kind of the chain, and whether the
contract and the function are in the white lists. -/
structure PriorityCheck where
  clearanceChain : Bool := false
  priorityChain : Bool := true
  white : Bool := true
  deriving DecidableEq

variable (check : PriorityCheck)

def PriorityCheck.reachesRole : Bool :=
  !check.clearanceChain && check.priorityChain && check.white

def RoleState.priority (contractAddr scsId : Address) (reported : ScsKind) : Bool × RoleState :=
  if check.clearanceChain then (true, state)
  else if ¬ check.priorityChain then (false, state)
  else if check.white then
    let asked := state.getSCSRole contractAddr scsId reported
    (asked.1 ≠ .none ∧ asked.1 ≠ .lockScs, asked.2)
  else (false, state)

theorem RoleState.priority_snd (contractAddr scsId : Address) (reported : ScsKind) :
    (state.priority check contractAddr scsId reported).2 =
      if check.reachesRole then (state.getSCSRole contractAddr scsId reported).2
      else state := by
  obtain ⟨clearanceChain, priorityChain, white⟩ := check
  cases clearanceChain <;> cases priorityChain <;> cases white <;> rfl

/-- What happens to the cached roles. -/
inductive RoleEvent where
  | advance (blocks : Nat)
  /-- A round of the loop of `NotifyScsFinalize`, with the connected SCSs and the payload that
  was decoded before. -/
  | notice (servers : List Address) (realMsg : List UInt8) (notify : NotifyScsMsg)
  | query (subchainId scsId : Address) (reported : ScsKind)
  | priority (check : PriorityCheck) (contractAddr scsId : Address) (reported : ScsKind)

variable (lib : CommonLib)

def RoleEvent.changes (subchainId : Address) : RoleEvent → Bool
  | .notice _ realMsg notify =>
    notify.address = subchainId ∧
      changesRoles lib (msgInHex (nextRealMsg realMsg notify.msg)) = true
  | _ => false

def roleStep (state : RoleState) : RoleEvent → RoleState
  | .advance blocks => { state with blockNumber := state.blockNumber + blocks }
  | .notice servers realMsg notify =>
    if changesRoles lib (msgInHex (nextRealMsg realMsg notify.msg)) then
      { state with roles := setScsRoleCacheOld servers state.roles notify.address }
    else state
  | .query subchainId scsId reported => (state.getSCSRole subchainId scsId reported).2
  | .priority check contractAddr scsId reported =>
    (state.priority check contractAddr scsId reported).2

structure Report where
  subchainId : Address
  scsId : Address
  role : ScsKind
  block : Nat
  deriving DecidableEq

/-- The answer that an event gets from the handler. -/
def RoleState.report : RoleEvent → Option Report
  | .query subchainId scsId reported =>
    if state.asks subchainId scsId then some ⟨subchainId, scsId, reported, state.blockNumber⟩
    else none
  | .priority check contractAddr scsId reported =>
    if check.reachesRole ∧ state.asks contractAddr scsId then
      some ⟨contractAddr, scsId, reported, state.blockNumber⟩
    else none
  | _ => none

/-- A run: the state, and the answers after which no notification changed the roles in their
subchain. -/
structure RoleRun where
  state : RoleState
  reports : List Report := []

def runStep (current : RoleRun) (event : RoleEvent) : RoleRun where
  state := roleStep lib current.state event
  reports := (current.state.report event).toList ++
    current.reports.filter fun report => !event.changes lib report.subchainId

/-- All SCSs whose role in the subchain is cached are connected when a notification changes the
roles; a role that is locked or already old does not matter. -/
def CachedConnected (current : RoleRun) : RoleEvent → Prop
  | .notice servers realMsg notify =>
    changesRoles lib (msgInHex (nextRealMsg realMsg notify.msg)) = true →
      ∀ scsId roleInfo, current.state.roles scsId notify.address = some roleInfo →
        roleInfo.role ≠ .lockScs → roleInfo.number ≠ 0 → scsId ∈ servers
  | _ => True

/-- A cached role that is not locked and not old is such an answer. -/
def Backed (current : RoleRun) : Prop :=
  ∀ subchainId scsId roleInfo, current.state.roles scsId subchainId = some roleInfo →
    roleInfo.role ≠ .lockScs → roleInfo.number ≠ 0 →
      ⟨subchainId, scsId, roleInfo.role, roleInfo.number⟩ ∈ current.reports

theorem roles_updateScsRoleCache {state : RoleState} {scsId subchainId : Address}
    {role : ScsKind} {otherScs otherSubchain : Address} {roleInfo : RoleCache}
    (cached : (state.updateScsRoleCache scsId subchainId role).roles otherScs otherSubchain =
      some roleInfo) :
    otherScs = scsId ∧ otherSubchain = subchainId ∧ roleInfo = ⟨role, state.blockNumber⟩ ∨
      state.roles otherScs otherSubchain = some roleInfo := by
  unfold RoleState.updateScsRoleCache at cached
  by_cases sameScs : otherScs = scsId
  · subst sameScs
    by_cases sameSubchain : otherSubchain = subchainId
    · subst sameSubchain
      simp only [update_self, Option.some.injEq] at cached
      exact .inl ⟨rfl, rfl, cached.symm⟩
    · simp only [update_self, update_of_ne sameSubchain] at cached
      exact .inr cached
  · simp only [update_of_ne sameScs] at cached
    exact .inr cached

theorem backed_getSCSRole {current : RoleRun} (backed : Backed current)
    (subchainId scsId : Address) (reported : ScsKind) :
    Backed {
      state := (current.state.getSCSRole subchainId scsId reported).2
      reports := (if current.state.asks subchainId scsId then
        some ⟨subchainId, scsId, reported, current.state.blockNumber⟩ else none).toList ++
          current.reports } := by
  intro otherSubchain otherScs roleInfo cached unlocked recent
  unfold RoleState.getSCSRole at cached
  by_cases asked : current.state.asks subchainId scsId = true
  · simp only [asked] at cached ⊢
    rcases roles_updateScsRoleCache cached with ⟨rfl, rfl, rfl⟩ | before
    · simp
    · have prior := backed otherSubchain otherScs roleInfo before unlocked recent
      simp [prior]
  · simp only [asked] at cached ⊢
    exact List.mem_append_right _ (backed otherSubchain otherScs roleInfo cached unlocked recent)

theorem backed_runStep {current : RoleRun} {event : RoleEvent} (backed : Backed current)
    (connected : CachedConnected lib current event) : Backed (runStep lib current event) := by
  cases event with
  | advance blocks =>
    intro subchainId scsId roleInfo cached unlocked recent
    have prior := backed subchainId scsId roleInfo cached unlocked recent
    simpa [runStep, RoleState.report, RoleEvent.changes] using prior
  | notice servers realMsg notify =>
    intro subchainId scsId roleInfo cached unlocked recent
    simp only [runStep, RoleState.report, Option.toList_none, List.nil_append, List.mem_filter,
      RoleEvent.changes, roleStep] at cached ⊢
    by_cases changed : changesRoles lib (msgInHex (nextRealMsg realMsg notify.msg)) = true
    · simp only [changed, if_true, setScsRoleCacheOld] at cached
      by_cases marked : scsId ∈ servers ∧ subchainId = notify.address
      · -- the cached role was marked as old
        rw [if_pos marked, Option.map_eq_some_iff] at cached
        obtain ⟨before, _, rfl⟩ := cached
        by_cases locked : before.role = .lockScs
        · rw [if_pos locked] at unlocked
          exact absurd locked unlocked
        · rw [if_neg locked] at recent
          exact absurd rfl recent
      · rw [if_neg marked] at cached
        have elsewhere : notify.address ≠ subchainId := by
          intro same
          rw [← same] at cached
          exact marked ⟨connected changed scsId roleInfo cached unlocked recent, same.symm⟩
        exact ⟨backed subchainId scsId roleInfo cached unlocked recent, by simp [elsewhere]⟩
    · simp only [changed] at cached
      exact ⟨backed subchainId scsId roleInfo cached unlocked recent, by simp [changed]⟩
  | query subchainId scsId reported =>
    have asked := backed_getSCSRole backed subchainId scsId reported
    simpa [runStep, roleStep, RoleState.report, RoleEvent.changes] using asked
  | priority check contractAddr scsId reported =>
    by_cases reaches : check.reachesRole = true
    · have asked := backed_getSCSRole backed contractAddr scsId reported
      simpa [runStep, roleStep, RoleState.priority_snd, RoleState.report, RoleEvent.changes,
        reaches] using asked
    · simpa [runStep, roleStep, RoleState.priority_snd, RoleState.report, RoleEvent.changes,
        reaches] using backed

/-- In a run in which all SCSs with a cached role are connected when their roles change,
`GetSCSRole` returns `LockScs` or an answer of the handler at most `maxRoleCache` blocks old with no
such change since. -/
theorem role_is_recent_report (first : Nat) (events : List RoleEvent)
    (connected : EachFold (runStep lib) (CachedConnected lib) ⟨⟨fun _ _ => none, first⟩, []⟩
      events) (subchainId scsId : Address) (reported : ScsKind) :
    let before := events.foldl (runStep lib) ⟨⟨fun _ _ => none, first⟩, []⟩
    let role := (before.state.getSCSRole subchainId scsId reported).1
    role ≠ .lockScs →
      ∃ report ∈ (runStep lib before (.query subchainId scsId reported)).reports,
        report.subchainId = subchainId ∧ report.scsId = scsId ∧ report.role = role ∧
          before.state.blockNumber ≤ report.block + maxRoleCache := by
  intro before role unlocked
  have backed : Backed before :=
    foldl_invariant Backed (backed_runStep lib) (by simp [Backed]) connected
  by_cases asked : before.state.asks subchainId scsId = true
  · -- the answer of this query
    refine ⟨⟨subchainId, scsId, reported, before.state.blockNumber⟩, ?_, rfl, rfl, ?_, ?_⟩
    · simp [runStep, RoleState.report, asked]
    · simp [role, RoleState.getSCSRole, asked]
    · exact Nat.le_add_right _ _
  · cases cached : before.state.roles scsId subchainId with
    | none => simp [RoleState.asks, cached] at asked
    | some roleInfo =>
      have same : role = roleInfo.role := by simp [role, RoleState.getSCSRole, asked, cached]
      rw [same] at unlocked ⊢
      simp only [RoleState.asks, cached, unlocked, ne_eq, not_false_eq_true, decide_true,
        Bool.true_and, shouldUpdateRoleCache, decide_eq_true_iff, not_or] at asked
      refine ⟨⟨subchainId, scsId, roleInfo.role, roleInfo.number⟩, ?_, rfl, rfl, rfl, ?_⟩
      · have kept := backed subchainId scsId roleInfo cached unlocked asked.1
        simpa [runStep, RoleEvent.changes] using Or.inr kept
      · have wrapped := Nat.mod_le (roleInfo.number + maxRoleCache) uint64Size
        dsimp only
        omega

def askedAndChanged (servers : List Address) : List RoleEvent :=
  [.query 1 9 .consensusScs, .notice servers [] approvalNotice]

def runFrom100 (events : List RoleEvent) : RoleRun :=
  events.foldl (runStep exampleLib) ⟨⟨fun _ _ => none, 100⟩, []⟩

theorem connected_role_recent :
    ∃ report ∈ (runStep exampleLib (runFrom100 (askedAndChanged [9]))
        (.query 1 9 .monitorScs)).reports,
      report.subchainId = 1 ∧ report.scsId = 9 ∧
        report.role = ((runFrom100 (askedAndChanged [9])).state.getSCSRole 1 9 .monitorScs).1 ∧
        (runFrom100 (askedAndChanged [9])).state.blockNumber ≤ report.block + maxRoleCache := by
  refine role_is_recent_report exampleLib 100 (askedAndChanged [9]) ⟨trivial, ?_, trivial⟩ 1 9
    .monitorScs (by decide +kernel)
  intro _ scsId roleInfo cached _ _
  rcases roles_updateScsRoleCache cached with ⟨same, _⟩ | before
  · rw [same]
    exact List.mem_singleton_self 9
  · cases before

/-- If SCS 9 is not connected, its role stays cached and is returned although the handler reports
another one since the approval. -/
theorem unconnected_role_stale :
    ((runFrom100 (askedAndChanged [])).state.getSCSRole 1 9 .none).1 = .consensusScs ∧
      (runStep exampleLib (runFrom100 (askedAndChanged [])) (.query 1 9 .none)).reports = [] := by
  decide +kernel

end MoacVnode.NetworkRelay
