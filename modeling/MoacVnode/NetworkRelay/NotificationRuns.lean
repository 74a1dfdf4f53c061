import MoacVnode.Lib.Run
import MoacVnode.NetworkRelay.Notifications

/-!
# Notifications along a run

Contracts record notifications while blocks are executed, and each block that is finalized pushes
those of earlier blocks.
-/

namespace MoacVnode.NetworkRelay

open MoacVnode.Core Lib List AList
open NotifyScsMsg (msgHash)

variable {cache : NotifyScsCache} {waits : List NotifyScsMsg} {notify : NotifyScsMsg}

/-- What else a call of `NotifyScsFinalize` finds: the connected SCSs, the clock, the messages
that are known after a push, the request ids and the cached roles. -/
structure Surroundings where
  servers : List Address := []
  clock : Nat → List UInt8 := fun _ => []
  afterPush : List Hash → ScsPushMsg → List Hash := fun known _ => known
  requests : Requests := { node := none }
  roles : ScsRoleCache := fun _ _ => none

/-- A call of the relay that uses the cache of notifications. -/
inductive CacheCall where
  | notifyScs (notify : NotifyScsMsg)
  /-- A live call, with the order in which it walks the map. -/
  | finalize (surroundings : Surroundings) (curblock : Int) (order : List NotifyScsMsg)

variable (lib : CommonLib)

def finalizeLive (cache : NotifyScsCache) (surroundings : Surroundings) (curblock : Int)
    (order : List NotifyScsMsg) : NotifyScsCache × Finalizing :=
  notifyScsFinalize lib surroundings.servers surroundings.clock surroundings.afterPush cache
    order surroundings.requests surroundings.roles curblock true

def cacheAfter (cache : NotifyScsCache) : CacheCall → NotifyScsCache
  | .notifyScs notify => notifyScs cache notify.address notify.msg notify.msgHash notify.block
  | .finalize surroundings curblock order => (finalizeLive lib cache surroundings curblock order).1

/-- A call that finalizes walks the entries of the map, in some order. -/
def Walks (cache : NotifyScsCache) : CacheCall → Prop
  | .notifyScs _ => True
  | .finalize _ _ order => order.Perm (cache.entries.map Sigma.snd)

instance (cache : NotifyScsCache) : DecidablePred (Walks cache) := fun call => by
  cases call <;> unfold Walks <;> infer_instance

/-- A notification is recorded while no other one of its transaction is cached, and the payloads
that are finalized together do not change each other's effect. -/
def Separate (cache : NotifyScsCache) : CacheCall → Prop
  | .notifyScs notify => cache.lookup notify.msgHash = none
  | .finalize _ curblock _ => PayloadsAgree lib (due curblock (cache.entries.map Sigma.snd))

instance (cache : NotifyScsCache) : DecidablePred (Separate lib cache) := fun call => by
  cases call <;> unfold Separate <;> infer_instance

/-- A call that pushes a notification, if it was not pushed before. -/
def CacheCall.isDueFor (notify : NotifyScsMsg) : CacheCall → Bool
  | .notifyScs _ => false
  | .finalize _ curblock _ => notify.block < curblock

/-- The notifications that were recorded and that no later call was due for. -/
def waiting : List CacheCall → List NotifyScsMsg
  | [] => []
  | .notifyScs notify :: later =>
    if later.any (CacheCall.isDueFor notify) then waiting later else notify :: waiting later
  | .finalize _ _ _ :: later => waiting later

theorem waiting_notifyScs (calls : List CacheCall) (notify : NotifyScsMsg) :
    waiting (calls ++ [.notifyScs notify]) = waiting calls ++ [notify] := by
  induction calls with
  | nil => rfl
  | cons call calls ih =>
    cases call with
    | notifyScs prior =>
      simp only [cons_append, waiting, any_append, any_cons, any_nil,
        CacheCall.isDueFor, Bool.or_false, ih]
      split <;> rfl
    | finalize _ _ _ => exact ih

theorem waiting_finalize (calls : List CacheCall) (surroundings : Surroundings)
    (curblock : Int) (order : List NotifyScsMsg) :
    waiting (calls ++ [.finalize surroundings curblock order]) =
      (waiting calls).filter fun notify => !decide (notify.block < curblock) := by
  induction calls with
  | nil => rfl
  | cons call calls ih =>
    cases call with
    | notifyScs prior =>
      simp only [cons_append, waiting, any_append, any_cons, CacheCall.isDueFor, ih]
      by_cases before : calls.any (CacheCall.isDueFor prior) = true
      · simp [before]
      · by_cases now : prior.block < curblock
        · simp [before, now]
        · simp [before, now]
    | finalize _ _ _ => exact ih

/-- The cached notifications are the ones that wait, each under the hash of its transaction,
and no two of one transaction wait. -/
structure Caches (cache : NotifyScsCache) (waits : List NotifyScsMsg) : Prop where
  lookup_iff : ∀ hash notify,
    cache.lookup hash = some notify ↔ notify.msgHash = hash ∧ notify ∈ waits
  distinct : (waits.map msgHash).Nodup

theorem mem_values_iff (caches : Caches cache waits) :
    notify ∈ cache.entries.map Sigma.snd ↔ notify ∈ waits := by
  simp only [mem_map, Sigma.exists]
  constructor
  · rintro ⟨hash, other, mem, rfl⟩
    have got := mem_lookup_iff.mpr mem
    exact ((caches.lookup_iff hash other).mp got).2
  · intro mem
    have got := (caches.lookup_iff notify.msgHash notify).mpr ⟨rfl, mem⟩
    exact ⟨notify.msgHash, notify, mem_lookup_iff.mp got, rfl⟩

theorem values_perm (caches : Caches cache waits) : (cache.entries.map Sigma.snd).Perm waits := by
  have hashes : (cache.entries.map Sigma.snd).map msgHash = cache.keys := by
    rw [map_map, AList.keys, List.keys]
    apply map_congr_left
    intro entry mem
    have got := mem_lookup_iff.mpr mem
    exact ((caches.lookup_iff entry.1 entry.2).mp got).1
  have nodup : (cache.entries.map Sigma.snd).Nodup := by
    apply List.Nodup.of_map msgHash
    rw [hashes]
    exact cache.keys_nodup
  exact (perm_ext_iff_of_nodup nodup (List.Nodup.of_map _ caches.distinct)).mpr
    fun notify => mem_values_iff caches

theorem lookup_foldl_erase (notices : List NotifyScsMsg) (cache : NotifyScsCache) (hash : Hash) :
    (notices.foldl (fun kept notify => kept.erase notify.msgHash) cache).lookup hash =
      if hash ∈ notices.map msgHash then none else cache.lookup hash := by
  induction notices generalizing cache with
  | nil => rfl
  | cons notify notices ih =>
    rw [foldl_cons, ih, map_cons]
    by_cases same : hash = notify.msgHash
    · rw [same]
      simp
    · simp [same]

theorem caches_notifyScs (caches : Caches cache waits)
    (fresh : cache.lookup notify.msgHash = none) :
    Caches (notifyScs cache notify.address notify.msg notify.msgHash notify.block)
      (waits ++ [notify]) := by
  have alone (other : NotifyScsMsg) (mem : other ∈ waits) : other.msgHash ≠ notify.msgHash := by
    intro same
    have got := (caches.lookup_iff notify.msgHash other).mpr ⟨same, mem⟩
    rw [fresh] at got
    cases got
  constructor
  · intro hash other
    rw [notifyScs, mem_append, mem_singleton]
    by_cases same : hash = notify.msgHash
    · rw [same, lookup_insert, Option.some.injEq]
      constructor
      · intro got
        rw [← got]
        exact ⟨rfl, Or.inr rfl⟩
      · rintro ⟨hashes, mem | got⟩
        · exact absurd hashes (alone other mem)
        · exact got.symm
    · rw [lookup_insert_ne same, caches.lookup_iff]
      refine and_congr_right fun hashes => (or_iff_left ?_).symm
      intro got
      rw [got] at hashes
      exact same hashes.symm
  · rw [map_append, nodup_append]
    refine ⟨caches.distinct, by simp, ?_⟩
    intro hash prior other later
    obtain ⟨recorded, mem, rfl⟩ := mem_map.mp prior
    rw [map_singleton, mem_singleton] at later
    rw [later]
    exact alone recorded mem

theorem caches_finalize (caches : Caches cache waits) (surroundings : Surroundings)
    (curblock : Int) {order : List NotifyScsMsg}
    (walked : order.Perm (cache.entries.map Sigma.snd)) :
    Caches (finalizeLive lib cache surroundings curblock order).1
      (waits.filter fun notify => !decide (notify.block < curblock)) := by
  have pushed (hash : Hash) : hash ∈ (due curblock order).map msgHash ↔
      ∃ notify ∈ waits, notify.block < curblock ∧ notify.msgHash = hash := by
    simp only [mem_map, mem_due, walked.mem_iff, mem_values_iff caches, and_assoc]
  constructor
  · intro hash notify
    rw [finalizeLive, notifyScsFinalize, if_pos rfl]
    rw [lookup_foldl_erase]
    by_cases erased : hash ∈ (due curblock order).map msgHash
    · rw [if_pos erased]
      refine iff_of_false (by simp) ?_
      rintro ⟨same, mem⟩
      rw [mem_filter] at mem
      obtain ⟨other, waits, old, hashes⟩ := (pushed hash).mp erased
      have sameNotice : other = notify :=
        inj_on_of_nodup_map caches.distinct waits mem.1 (hashes.trans same.symm)
      simp [← sameNotice, old] at mem
    · rw [if_neg erased, caches.lookup_iff, mem_filter]
      refine and_congr_right fun same => ⟨fun mem => ⟨mem, ?_⟩, fun kept => kept.1⟩
      have young : ¬ notify.block < curblock := fun old =>
        erased ((pushed hash).mpr ⟨notify, mem, old, same⟩)
      simp [young]
  · exact caches.distinct.sublist (filter_sublist.map _)

theorem caches_of_run {calls : List CacheCall} (conds : EachFold (cacheAfter lib)
      (fun cache call => Walks cache call ∧ Separate lib cache call) ∅ calls) :
    Caches (calls.foldl (cacheAfter lib) ∅) (waiting calls) := by
  induction calls using List.reverseRecOn with
  | nil => exact ⟨by simp [waiting], nodup_nil⟩
  | append_singleton calls call ih =>
    obtain ⟨prior, last⟩ := eachFold_append.mp conds
    have caches := ih prior
    rw [foldl_append, foldl_cons, foldl_nil]
    cases call with
    | notifyScs notify =>
      rw [waiting_notifyScs]
      exact caches_notifyScs caches last.1.2
    | finalize surroundings curblock order =>
      rw [waiting_finalize]
      exact caches_finalize lib caches surroundings curblock last.1.1

/-- The message of the emission is a control message to the subchain of the notification, with its
hash and the status of its own payload. -/
def Announces (emission : Emission) (notify : NotifyScsMsg) : Prop :=
  emission.content = ownContent lib notify

/-- In a run that records no second notification of a transaction while the first is cached, and
finalizes no short payload with one that has an effect, each finalizing call pushes one message for
each notification of an earlier block that no call since was due for, and no other. -/
theorem each_notification_pushed_once (before after : List CacheCall)
    (surroundings : Surroundings) (curblock : Int) (order : List NotifyScsMsg)
    (conds : EachFold (cacheAfter lib)
      (fun cache call => Walks cache call ∧ Separate lib cache call) ∅
      (before ++ .finalize surroundings curblock order :: after)) :
    ∃ pushed, pushed.Perm ((waiting before).filter fun notify => notify.block < curblock) ∧
      List.Forall₂ (Announces lib)
        (finalizeLive lib (before.foldl (cacheAfter lib) ∅) surroundings curblock
          order).2.emissions pushed := by
  obtain ⟨prior, later⟩ := eachFold_append.mp conds
  obtain ⟨walked, agree⟩ := later.1
  refine ⟨due curblock order, ?_, ?_⟩
  · exact (walked.trans (values_perm (caches_of_run lib prior))).filter _
  · have contents := (contentsFrom_eq_map_iff lib).mpr agree (due curblock order) (walked.filter _)
    rw [← emissions_finalize lib surroundings.servers surroundings.clock surroundings.afterPush _
      surroundings.requests surroundings.roles, ← forall₂_eq_eq_eq, forall₂_map_left_iff,
      forall₂_map_right_iff] at contents
    exact contents

def approval (subchain : Address) (hash : Hash) (block : Int) : NotifyScsMsg :=
  ⟨subchain, List.replicate 31 0 ++ [5], hash, block⟩

def twoTransactions : List CacheCall :=
  [.notifyScs (approval 1 1 7), .notifyScs (approval 2 2 8),
    .finalize {} 8 [approval 1 1 7, approval 2 2 8]]

theorem second_transaction_pushed_once :
    ∃ pushed, pushed.Perm ((waiting twoTransactions).filter fun notify => notify.block < 9) ∧
      List.Forall₂ (Announces exampleLib)
        (finalizeLive exampleLib (twoTransactions.foldl (cacheAfter exampleLib) ∅) {} 9
          [approval 2 2 8]).2.emissions pushed :=
  each_notification_pushed_once exampleLib twoTransactions [] {} 9 [approval 2 2 8]
    (by decide +kernel)

def oneTransaction : List CacheCall := [.notifyScs ⟨1, [], 1, 7⟩, .notifyScs ⟨2, [], 1, 7⟩]

/-- Both notifications wait when block 8 is finalized; one message is pushed, for the second
subchain, and nothing is left in the cache. -/
theorem first_of_transaction_lost :
    waiting oneTransaction = [⟨1, [], 1, 7⟩, ⟨2, [], 1, 7⟩] ∧
      EachFold (cacheAfter exampleLib) Walks ∅
        (oneTransaction ++ [.finalize {} 8 [⟨2, [], 1, 7⟩]]) ∧
      (finalizeLive exampleLib (oneTransaction.foldl (cacheAfter exampleLib) ∅) {} 8
          [⟨2, [], 1, 7⟩]).2.emissions.map (fun emission => emission.message.subchainid) =
        [addressBytes 2] ∧
      (finalizeLive exampleLib (oneTransaction.foldl (cacheAfter exampleLib) ∅) {} 8
          [⟨2, [], 1, 7⟩]).1.entries = [] := by
  decide +kernel

end MoacVnode.NetworkRelay
