import Ergon.Lib.Machine
import Ergon.Node.Coins

/-!
# Ergon — coin caches

`CCoinsViewCache` (`coins.cpp`): a cache over another view, which may be a cache
again or the database (`CCoinsViewDB`). Entries are marked `DIRTY` if they may
differ from the parent view, and `FRESH` if the parent has no unspent coin for
them; what is spent while it is `FRESH` is forgotten without telling the parent.
Best-block pointers and memory accounting are left out.

A view stands for the unspent coins that it shows (`coinAt`), and a cache is
`Coupled` to its parent if its flags are right.

* `CacheOp.run_spec` — every operation keeps a cache coupled and does to the
  coins what it says, if coins are not added over unspent ones unannounced;
* `CoinsViewCache.fresh_of_overwrite` — such a coin is marked `FRESH` wrongly;
* `Stack.faithful_iff` — so a stack of two caches shows the coins of a flat map
  exactly in the runs in which that never happens.
-/

namespace Ergon

open Lib Option Column Std.ExtTreeMap

/-- A coin after `Clear`. -/
def Coin.empty : Coin := ⟨⟨-1, ⟨[]⟩⟩, 0, false⟩

/-- The coin, unless it is spent. -/
def Coin.unspent (c : Coin) : Option Coin := if c.isSpent then none else some c

theorem Coin.unspent_of_isSpent {c : Coin} (h : c.isSpent = true) : c.unspent = none := if_pos h

theorem Coin.unspent_of_not_isSpent {c : Coin} (h : c.isSpent = false) : c.unspent = some c :=
  if_neg (Bool.eq_false_iff.mp h)

theorem Coin.unspent_bind_unspent {c : Coin} : c.unspent.bind Coin.unspent = c.unspent := by
  unfold unspent
  split
  · rfl
  · next h => exact if_neg h

structure CoinsCacheEntry where
  coin : Coin
  dirty : Bool := false
  fresh : Bool := false
deriving DecidableEq

abbrev CoinsMap := Column OutPoint CoinsCacheEntry

/-- A view of the coins. Looking a coin up may fill caches; `none` is where the
source returns false. A batch is refused where the source throws. -/
class CoinsView (V : Type) where
  getCoin : V → OutPoint → Option Coin × V
  batchWrite : V → CoinsMap → Option V

/-! ## The database -/

structure CoinsViewDB where
  coins : Column OutPoint Coin

namespace CoinsViewDB

def getCoin (db : CoinsViewDB) (out : OutPoint) : Option Coin × CoinsViewDB := (db.coins[out]?, db)

def writeEntry (old : Option Coin) (entry : CoinsCacheEntry) : Option (Option Coin) :=
  if entry.dirty then some entry.coin.unspent else some old

def batchWrite (db : CoinsViewDB) (mapCoins : CoinsMap) : Option CoinsViewDB :=
  (db.coins.updateAll writeEntry mapCoins.toList).map CoinsViewDB.mk

end CoinsViewDB

instance : CoinsView CoinsViewDB := ⟨CoinsViewDB.getCoin, CoinsViewDB.batchWrite⟩

/-! ## Caches -/

structure CoinsViewCache (V : Type) where
  cacheCoins : CoinsMap
  base : V

namespace CoinsViewCache

variable {V : Type} [CoinsView V]

/-- Replace or remove an entry. -/
def setEntry (v : CoinsViewCache V) (out : OutPoint) (entry : Option CoinsCacheEntry) :
    CoinsViewCache V :=
  { v with cacheCoins := v.cacheCoins.set out entry }

def fetchCoin (v : CoinsViewCache V) (out : OutPoint) :
    Option CoinsCacheEntry × CoinsViewCache V :=
  match v.cacheCoins[out]? with
  | some entry => (some entry, v)
  | none =>
    match CoinsView.getCoin v.base out with
    | (none, base) => (none, { v with base })
    | (some tmp, base) =>
      -- if the parent only has an empty entry, ours is fresh
      let entry := { coin := tmp, fresh := tmp.isSpent }
      (some entry, setEntry { v with base } out (some entry))

def getCoin (v : CoinsViewCache V) (out : OutPoint) : Option Coin × CoinsViewCache V :=
  let (it, v) := v.fetchCoin out
  (it.bind fun entry => entry.coin.unspent, v)

def accessCoin (v : CoinsViewCache V) (out : OutPoint) : Coin × CoinsViewCache V :=
  let (it, v) := v.fetchCoin out
  (it.elim Coin.empty fun entry => entry.coin, v)

/-- The coin of an entry, also of a spent one. -/
def copyCachedCoin (v : CoinsViewCache V) (out : OutPoint) : Option Coin :=
  v.cacheCoins[out]?.map fun entry => entry.coin

/-- Fails where the source throws, or asserts that the coin is unspent. -/
def addCoin (v : CoinsViewCache V) (out : OutPoint) (coin : Coin) (possibleOverwrite : Bool) :
    Option (CoinsViewCache V) :=
  if coin.isSpent then none
  else if coin.isUnspendable then some v
  else
    let entry := v.cacheCoins[out]?.getD { coin := .empty }
    if !possibleOverwrite && !entry.coin.isSpent then none
    else
      let fresh := !possibleOverwrite && !entry.dirty
      some (v.setEntry out (some ⟨coin, true, entry.fresh || fresh⟩))

/-- Gives the coin that is moved out, if an entry was found. -/
def spendCoin (v : CoinsViewCache V) (out : OutPoint) : Option Coin × CoinsViewCache V :=
  match v.fetchCoin out with
  | (none, v) => (none, v)
  | (some entry, v) =>
    let entry' := if entry.fresh then none else some { entry with coin := .empty, dirty := true }
    (some entry.coin, v.setEntry out entry')

/-- What an entry of the child makes of ours. -/
def writeEntry (ours : Option CoinsCacheEntry) (entry : CoinsCacheEntry) :
    Option (Option CoinsCacheEntry) :=
  if !entry.dirty then some ours
  else
    match ours with
    | none =>
      if entry.fresh && entry.coin.isSpent then some none
      else some (some ⟨entry.coin, true, entry.fresh⟩)
    | some itUs =>
      if entry.fresh && !itUs.coin.isSpent then none
      else if itUs.fresh && entry.coin.isSpent then some none
      else some (some { itUs with coin := entry.coin, dirty := true })

def batchWrite (v : CoinsViewCache V) (mapCoins : CoinsMap) : Option (CoinsViewCache V) :=
  (v.cacheCoins.updateAll writeEntry mapCoins.toList).map fun cacheCoins => { v with cacheCoins }

def flush (v : CoinsViewCache V) : Option (CoinsViewCache V) :=
  (CoinsView.batchWrite v.base v.cacheCoins).map fun base => ⟨∅, base⟩

def uncache (v : CoinsViewCache V) (out : OutPoint) : CoinsViewCache V :=
  match v.cacheCoins[out]? with
  | some entry =>
    if !entry.dirty && !entry.fresh then v.setEntry out none else v
  | none => v

end CoinsViewCache

instance {V : Type} [CoinsView V] : CoinsView (CoinsViewCache V) :=
  ⟨CoinsViewCache.getCoin, CoinsViewCache.batchWrite⟩

/-! ## What a view stands for -/

/-- A view with the unspent coins that it shows. Looking up changes none of
them, and a batch replaces exactly those that it has as `DIRTY`, if its `FRESH`
entries are right. -/
class LawfulCoinsView (V : Type) [CoinsView V] where
  coinAt : V → OutPoint → Option Coin
  Coupled : V → Prop
  getCoin_fst (v : V) (out : OutPoint) : Coupled v →
    (CoinsView.getCoin v out).1.bind Coin.unspent = coinAt v out
  getCoin_snd (v : V) (out : OutPoint) : Coupled v →
    Coupled (CoinsView.getCoin v out).2 ∧ coinAt (CoinsView.getCoin v out).2 = coinAt v
  batchWrite_eq_some (v v' : V) (mapCoins : CoinsMap) : Coupled v →
    (∀ out (entry : CoinsCacheEntry), mapCoins[out]? = some entry → entry.fresh = true →
      coinAt v out = none) → CoinsView.batchWrite v mapCoins = some v' →
    Coupled v' ∧ ∀ out, coinAt v' out = mapCoins[out]?.elim (coinAt v out) fun entry =>
      if entry.dirty then entry.coin.unspent else coinAt v out

export LawfulCoinsView (coinAt Coupled)

instance : LawfulCoinsView CoinsViewDB where
  coinAt db out := db.coins[out]?.bind Coin.unspent
  Coupled _ := True
  getCoin_fst _ _ _ := rfl
  getCoin_snd _ _ _ := ⟨trivial, rfl⟩
  batchWrite_eq_some db db' mapCoins _ _ h := by
    obtain ⟨coins, hUpdate, rfl⟩ := map_eq_some_iff.mp h
    refine ⟨trivial, fun out => ?_⟩
    have hAt := getElem?_updateAll_toList hUpdate out
    cases hEntry : mapCoins[out]? with
    | none =>
      rw [hEntry] at hAt
      rw [← Option.some.inj hAt]
      rfl
    | some entry =>
      rw [hEntry, elim_some, CoinsViewDB.writeEntry] at hAt
      rw [elim_some]
      split at hAt
      · next hDirty =>
        rw [if_pos hDirty, ← Option.some.inj hAt]
        exact Coin.unspent_bind_unspent
      · next hClean => rw [if_neg hClean, ← Option.some.inj hAt]

/-- The flags of an entry are right for what the parent shows. -/
structure CoinsCacheEntry.FlagsOk (entry : CoinsCacheEntry) (parent : Option Coin) : Prop where
  fresh : entry.fresh = true → parent = none
  clean : entry.dirty = false → entry.coin.unspent = parent

namespace CoinsViewCache

variable {V : Type} [CoinsView V] [LawfulCoinsView V]

/-- What an entry shows, or the parent if there is none. -/
def shows (entry : Option CoinsCacheEntry) (parent : Option Coin) : Option Coin :=
  entry.elim parent fun entry => entry.coin.unspent

/-- An entry has the right flags, if there is one. -/
def EntryOk (entry : Option CoinsCacheEntry) (parent : Option Coin) : Prop :=
  ∀ e, entry = some e → e.FlagsOk parent

def shownCoin (v : CoinsViewCache V) (out : OutPoint) : Option Coin :=
  shows v.cacheCoins[out]? (coinAt v.base out)

structure IsCoupled (v : CoinsViewCache V) : Prop where
  base : Coupled v.base
  entries : ∀ out, EntryOk v.cacheCoins[out]? (coinAt v.base out)

omit [CoinsView V] [LawfulCoinsView V] in
/-- What an entry of the child makes of ours: it is shown if it is `DIRTY`. -/
theorem writeEntry_eq_some {ours x : Option CoinsCacheEntry} {entry : CoinsCacheEntry}
    {parent : Option Coin} (hOurs : EntryOk ours parent)
    (hFresh : entry.fresh = true → shows ours parent = none) (h : writeEntry ours entry = some x) :
    EntryOk x parent ∧
      shows x parent = if entry.dirty then entry.coin.unspent else shows ours parent := by
  unfold writeEntry at h
  cases hDirty : entry.dirty with
  | false =>
    rw [hDirty] at h
    cases h
    exact ⟨hOurs, rfl⟩
  | true =>
    rw [hDirty, Bool.not_true, if_neg Bool.false_ne_true] at h
    rw [if_pos rfl]
    cases ours with
    | none =>
      replace h : (if entry.fresh && entry.coin.isSpent then some none
        else some (some (⟨entry.coin, true, entry.fresh⟩ : CoinsCacheEntry))) = some x := h
      split at h
      · next hBoth =>
        rw [Bool.and_eq_true] at hBoth
        cases h
        refine ⟨nofun, ?_⟩
        rw [Coin.unspent_of_isSpent hBoth.2]
        exact hFresh hBoth.1
      · cases h
        refine ⟨fun e he => ?_, rfl⟩
        cases he
        exact ⟨hFresh, nofun⟩
    | some itUs =>
      have hFlags := hOurs itUs rfl
      replace h : (if entry.fresh && !itUs.coin.isSpent then none
        else if itUs.fresh && entry.coin.isSpent then some none
        else some (some { itUs with coin := entry.coin, dirty := true })) = some x := h
      split at h
      · cases h
      · split at h
        · next hBoth =>
          rw [Bool.and_eq_true] at hBoth
          cases h
          refine ⟨nofun, ?_⟩
          rw [Coin.unspent_of_isSpent hBoth.2]
          exact hFlags.fresh hBoth.1
        · cases h
          refine ⟨fun e he => ?_, rfl⟩
          cases he
          exact ⟨hFlags.fresh, nofun⟩

variable {v : CoinsViewCache V} {out : OutPoint}

theorem IsCoupled.set (h : v.IsCoupled) (entry : Option CoinsCacheEntry)
    (hEntry : EntryOk entry (coinAt v.base out)) :
    IsCoupled (v.setEntry out entry) where
  base := h.base
  entries out' := by
    rw [setEntry, getElem?_set]
    split
    · next hOut =>
      subst hOut
      exact hEntry
    · exact h.entries out'

theorem shownCoin_set (v : CoinsViewCache V) (out : OutPoint) (entry : Option CoinsCacheEntry) :
    shownCoin (v.setEntry out entry) =
      Function.update v.shownCoin out (shows entry (coinAt v.base out)) := by
  funext out'
  rw [shownCoin, setEntry, getElem?_set]
  by_cases hOut : out = out'
  · subst hOut
    rw [if_pos rfl, Function.update_self]
  · rw [if_neg hOut, Function.update_of_ne (Ne.symm hOut)]
    rfl

theorem IsCoupled.rebase (h : v.IsCoupled) {base : V} (hBase : Coupled base)
    (hCoins : coinAt base = coinAt v.base) : IsCoupled ⟨v.cacheCoins, base⟩ where
  base := hBase
  entries out := by
    rw [hCoins]
    exact h.entries out

/-- Fetching gives the entry for the coin that is shown, and shows the same coins. -/
theorem fetchCoin_spec (h : v.IsCoupled) (out : OutPoint) :
    (v.fetchCoin out).2.IsCoupled ∧ (v.fetchCoin out).2.shownCoin = v.shownCoin ∧
      (v.fetchCoin out).2.cacheCoins[out]? = (v.fetchCoin out).1 ∧
      (v.fetchCoin out).1.bind (fun entry => entry.coin.unspent) = v.shownCoin out := by
  unfold fetchCoin
  split
  · next entry hEntry =>
    refine ⟨h, rfl, hEntry, ?_⟩
    rw [shownCoin, hEntry]
    rfl
  · next hNone =>
    have hFst := LawfulCoinsView.getCoin_fst v.base out h.base
    have hSnd := LawfulCoinsView.getCoin_snd v.base out h.base
    have hParent : v.shownCoin out = coinAt v.base out := by
      rw [shownCoin, hNone]
      rfl
    split
    · next base hGet =>
      rw [hGet] at hFst hSnd
      refine ⟨h.rebase hSnd.1 hSnd.2, ?_, hNone, hFst.trans hParent.symm⟩
      funext out'
      rw [shownCoin, hSnd.2]
      rfl
    · next tmp base hGet =>
      rw [hGet] at hFst hSnd
      replace hFst : tmp.unspent = coinAt v.base out := hFst
      have hBase := h.rebase hSnd.1 hSnd.2
      have hSame : shownCoin ⟨v.cacheCoins, base⟩ = v.shownCoin := by
        funext out'
        rw [shownCoin, hSnd.2]
        rfl
      refine ⟨hBase.set (some _) ?_, ?_, ?_, hFst.trans hParent.symm⟩
      · intro e he
        cases he
        rw [hSnd.2]
        exact ⟨fun hSpent => hFst ▸ Coin.unspent_of_isSpent hSpent, fun _ => hFst⟩
      · refine (shownCoin_set ⟨v.cacheCoins, base⟩ out (some _)).trans ?_
        rw [hSame]
        refine Function.update_eq_self_iff.mpr ?_
        exact hFst.trans hParent.symm
      · exact (getElem?_set ..).trans (if_pos rfl)

variable {v' : CoinsViewCache V}

theorem batchWrite_spec {mapCoins : CoinsMap} (h : v.IsCoupled)
    (hFresh : ∀ out (entry : CoinsCacheEntry), mapCoins[out]? = some entry →
      entry.fresh = true → v.shownCoin out = none)
    (hWrite : v.batchWrite mapCoins = some v') :
    v'.IsCoupled ∧ ∀ out, v'.shownCoin out = mapCoins[out]?.elim (v.shownCoin out) fun entry =>
      if entry.dirty then entry.coin.unspent else v.shownCoin out := by
  obtain ⟨cacheCoins, hUpdate, rfl⟩ := map_eq_some_iff.mp hWrite
  have hAt : ∀ out, EntryOk cacheCoins[out]? (coinAt v.base out) ∧
      shows cacheCoins[out]? (coinAt v.base out) = mapCoins[out]?.elim (v.shownCoin out)
        fun entry => if entry.dirty then entry.coin.unspent else v.shownCoin out := by
    intro out
    have hUpdated := getElem?_updateAll_toList hUpdate out
    cases hEntry : mapCoins[out]? with
    | none =>
      rw [hEntry] at hUpdated
      rw [← Option.some.inj hUpdated]
      exact ⟨h.entries out, rfl⟩
    | some entry =>
      rw [hEntry] at hUpdated
      exact writeEntry_eq_some (h.entries out) (hFresh out entry hEntry) hUpdated
  exact ⟨⟨h.base, fun out => (hAt out).1⟩, fun out => (hAt out).2⟩

instance : LawfulCoinsView (CoinsViewCache V) where
  coinAt := shownCoin
  Coupled := IsCoupled
  getCoin_fst v out h := by
    obtain ⟨-, -, -, hShown⟩ := fetchCoin_spec h out
    show ((v.fetchCoin out).1.bind fun entry => entry.coin.unspent).bind Coin.unspent = _
    rw [← hShown, bind_assoc]
    exact congrArg _ (funext fun entry => Coin.unspent_bind_unspent)
  getCoin_snd v out h := by
    obtain ⟨hCoupled, hSame, -, -⟩ := fetchCoin_spec h out
    exact ⟨hCoupled, hSame⟩
  batchWrite_eq_some _ _ _ h hFresh hWrite := batchWrite_spec h hFresh hWrite

/-- No `FRESH` entry has an unspent coin in the parent view. -/
def FreshOk (v : CoinsViewCache V) : Prop :=
  ∀ out entry, v.cacheCoins[out]? = some entry → entry.fresh = true →
    ∀ coin, (CoinsView.getCoin v.base out).1 = some coin → coin.isSpent = true

theorem IsCoupled.freshOk (h : v.IsCoupled) : v.FreshOk := by
  intro out entry hEntry hFresh coin hCoin
  have hNone := LawfulCoinsView.getCoin_fst v.base out h.base
  rw [hCoin, (h.entries out entry hEntry).fresh hFresh] at hNone
  by_contra hUnspent
  rw [bind_some, Coin.unspent_of_not_isSpent (Bool.eq_false_iff.mpr hUnspent)] at hNone
  cases hNone

theorem FreshOk.coinAt_eq_none (h : v.FreshOk) (hBase : Coupled v.base) {out : OutPoint}
    {entry : CoinsCacheEntry} (hEntry : v.cacheCoins[out]? = some entry)
    (hFresh : entry.fresh = true) : coinAt v.base out = none := by
  rw [← LawfulCoinsView.getCoin_fst v.base out hBase]
  cases hCoin : (CoinsView.getCoin v.base out).1 with
  | none => rfl
  | some coin => exact Coin.unspent_of_isSpent (h out entry hEntry hFresh coin hCoin)

/-! ## Operations -/

omit [CoinsView V] [LawfulCoinsView V] in
theorem addCoin_eq_some {coin : Coin} {possibleOverwrite : Bool}
    (h : v.addCoin out coin possibleOverwrite = some v') :
    coin.isSpent = false ∧ if coin.isUnspendable then v' = v else
      ∃ entry, entry = v.cacheCoins[out]?.getD { coin := .empty } ∧
        (possibleOverwrite = false → entry.coin.isSpent = true) ∧
        v' = v.setEntry out
          (some ⟨coin, true, entry.fresh || (!possibleOverwrite && !entry.dirty)⟩) := by
  unfold addCoin at h
  split at h
  · cases h
  · next hUnspent =>
    refine ⟨Bool.eq_false_iff.mpr hUnspent, ?_⟩
    split at h
    · next hScript =>
      rw [if_pos hScript]
      exact (Option.some.inj h).symm
    · next hScript =>
      rw [if_neg hScript]
      dsimp only at h
      split at h
      · cases h
      · next hThrow =>
        refine ⟨_, rfl, ?_, (Option.some.inj h).symm⟩
        intro hOverwrite
        subst hOverwrite
        rw [Bool.not_false, Bool.true_and, Bool.not_eq_true, Bool.not_eq_false'] at hThrow
        exact hThrow

theorem addCoin_spec {coin : Coin} {possibleOverwrite : Bool} (h : v.IsCoupled)
    (hNew : possibleOverwrite = false → coin.isUnspendable = true ∨ v.shownCoin out = none)
    (hAdd : v.addCoin out coin possibleOverwrite = some v') :
    v'.IsCoupled ∧ v'.shownCoin =
      if coin.isUnspendable then v.shownCoin else Function.update v.shownCoin out (some coin) := by
  obtain ⟨hUnspent, hRest⟩ := addCoin_eq_some hAdd
  split at hRest
  · next hScript =>
    rw [hRest, if_pos hScript]
    exact ⟨h, rfl⟩
  · next hScript =>
    obtain ⟨entry, hEntry, hSpent, rfl⟩ := hRest
    rw [if_neg hScript]
    refine ⟨h.set _ ?_, (shownCoin_set v out _).trans ?_⟩
    · intro e he
      cases he
      refine ⟨fun hFresh => ?_, nofun⟩
      have hFlags := h.entries out
      cases hOld : v.cacheCoins[out]? with
      | none =>
        -- without an entry the coin is taken to be new
        rw [hOld] at hEntry
        subst hEntry
        cases possibleOverwrite with
        | true => cases hFresh
        | false =>
          have hNone := (hNew rfl).resolve_left hScript
          rw [shownCoin, hOld] at hNone
          exact hNone
      | some old =>
        rw [hOld] at hEntry hFlags
        subst hEntry
        rcases Bool.or_eq_true_iff.mp hFresh with hOldFresh | hClean
        · exact (hFlags _ rfl).fresh hOldFresh
        · rw [Bool.and_eq_true, Bool.not_eq_true', Bool.not_eq_true'] at hClean
          rw [← (hFlags _ rfl).clean hClean.2]
          exact Coin.unspent_of_isSpent (hSpent hClean.1)
    · exact congrArg (Function.update _ out) (Coin.unspent_of_not_isSpent hUnspent)

/-- A coin that is added over an unspent one of the parent unannounced is
marked `FRESH`. -/
theorem fresh_of_overwrite {coin old : Coin} (hScript : coin.isUnspendable = false)
    (hOld : v.shownCoin out = some old) (hAdd : v.addCoin out coin false = some v') :
    ∃ entry, v'.cacheCoins[out]? = some entry ∧ entry.fresh = true ∧ v'.base = v.base ∧
      coinAt v.base out = some old := by
  obtain ⟨-, hRest⟩ := addCoin_eq_some hAdd
  rw [if_neg (Bool.eq_false_iff.mp hScript)] at hRest
  obtain ⟨entry, hEntry, hSpent, rfl⟩ := hRest
  rw [shownCoin] at hOld
  cases hCached : v.cacheCoins[out]? with
  | none =>
    rw [hCached] at hEntry hOld
    subst hEntry
    exact ⟨_, (getElem?_set ..).trans (if_pos rfl), rfl, rfl, hOld⟩
  | some cached =>
    -- an unspent entry of our own is noticed
    rw [hCached] at hEntry hOld
    subst hEntry
    replace hOld : Coin.unspent _ = some old := hOld
    rw [Coin.unspent_of_isSpent (hSpent rfl)] at hOld
    cases hOld

theorem spendCoin_spec (h : v.IsCoupled) (out : OutPoint) :
    (v.spendCoin out).2.IsCoupled ∧
      (v.spendCoin out).2.shownCoin = Function.update v.shownCoin out none ∧
      (v.spendCoin out).1.bind Coin.unspent = v.shownCoin out := by
  obtain ⟨hCoupled, hSame, hGet, hShown⟩ := fetchCoin_spec h out
  unfold spendCoin
  split
  · next v' hFetch =>
    rw [hFetch] at hCoupled hSame hShown
    refine ⟨hCoupled, ?_, hShown⟩
    rw [hSame]
    exact (Function.update_eq_self_iff.mpr hShown).symm
  · next entry v' hFetch =>
    rw [hFetch] at hCoupled hSame hGet hShown
    have hFlags := hCoupled.entries out entry hGet
    refine ⟨hCoupled.set _ ?_, (shownCoin_set v' out _).trans ?_, hShown⟩
    · intro e he
      split at he
      · cases he
      · cases he
        exact ⟨hFlags.fresh, nofun⟩
    · rw [hSame]
      refine congrArg (Function.update _ out) ?_
      split
      · next hFresh => exact hFlags.fresh hFresh
      · rfl

theorem uncache_spec (h : v.IsCoupled) (out : OutPoint) :
    (v.uncache out).IsCoupled ∧ (v.uncache out).shownCoin = v.shownCoin := by
  unfold uncache
  split
  · next entry hEntry =>
    split
    · next hFlags =>
      rw [Bool.and_eq_true, Bool.not_eq_true', Bool.not_eq_true'] at hFlags
      refine ⟨h.set none nofun, (shownCoin_set v out none).trans ?_⟩
      refine Function.update_eq_self_iff.mpr ?_
      rw [shownCoin, hEntry]
      exact ((h.entries out entry hEntry).clean hFlags.1).symm
    · exact ⟨h, rfl⟩
  · exact ⟨h, rfl⟩

theorem flush_spec (h : v.IsCoupled) (hFlush : v.flush = some v') :
    v'.IsCoupled ∧ v'.shownCoin = v.shownCoin := by
  obtain ⟨base, hWrite, rfl⟩ := map_eq_some_iff.mp hFlush
  obtain ⟨hBase, hCoins⟩ := LawfulCoinsView.batchWrite_eq_some v.base base v.cacheCoins h.base
    (fun out entry hEntry => (h.entries out entry hEntry).fresh) hWrite
  refine ⟨⟨hBase, fun out e he => ?_⟩, funext fun out => ?_⟩
  · cases getElem?_empty.symm.trans he
  · show coinAt base out = v.shownCoin out
    rw [hCoins, shownCoin]
    cases hEntry : v.cacheCoins[out]? with
    | none => rfl
    | some entry =>
      show (if entry.dirty then entry.coin.unspent else _) = entry.coin.unspent
      split
      · rfl
      · next hClean =>
        exact ((h.entries out entry hEntry).clean (Bool.eq_false_iff.mpr hClean)).symm

end CoinsViewCache

inductive CacheOp
  | addCoin (out : OutPoint) (coin : Coin) (possibleOverwrite : Bool)
  | spendCoin (out : OutPoint)
  | accessCoin (out : OutPoint)
  | getCoin (out : OutPoint)
  | uncache (out : OutPoint)
  | flush
deriving DecidableEq

namespace CacheOp

def run {V : Type} [CoinsView V] (v : CoinsViewCache V) : CacheOp → Option (CoinsViewCache V)
  | .addCoin out coin possibleOverwrite => v.addCoin out coin possibleOverwrite
  | .spendCoin out => some (v.spendCoin out).2
  | .accessCoin out => some (v.accessCoin out).2
  | .getCoin out => some (v.getCoin out).2
  | .uncache out => some (v.uncache out)
  | .flush => v.flush

/-- Adds or spends a coin. -/
def changesCoins : CacheOp → Bool
  | .addCoin .. => true
  | .spendCoin _ => true
  | _ => false

/-- What an operation does to the coins. -/
def update (coins : OutPoint → Option Coin) : CacheOp → OutPoint → Option Coin
  | .addCoin out coin _ =>
    if coin.isUnspendable then coins else Function.update coins out (some coin)
  | .spendCoin out => Function.update coins out none
  | _ => coins

/-- A coin that may be stored is only added over an unspent one if that is
announced. -/
def Allowed (coins : OutPoint → Option Coin) : CacheOp → Prop
  | .addCoin out coin possibleOverwrite =>
    possibleOverwrite = false → coin.isUnspendable = true ∨ coins out = none
  | _ => True

theorem update_of_not_changesCoins {op : CacheOp} (h : op.changesCoins = false)
    (coins : OutPoint → Option Coin) : op.update coins = coins ∧ op.Allowed coins := by
  cases op with
  | addCoin out coin possibleOverwrite => cases h
  | spendCoin out => cases h
  | accessCoin out => exact ⟨rfl, trivial⟩
  | getCoin out => exact ⟨rfl, trivial⟩
  | uncache out => exact ⟨rfl, trivial⟩
  | flush => exact ⟨rfl, trivial⟩

variable {V : Type} [CoinsView V] [LawfulCoinsView V] {v v' : CoinsViewCache V} {op : CacheOp}

/-- **An operation on a cache**, if it is allowed. -/
theorem run_spec (h : v.IsCoupled) (hAllowed : op.Allowed v.shownCoin) (hRun : op.run v = some v') :
    v'.IsCoupled ∧ v'.shownCoin = op.update v.shownCoin := by
  cases op with
  | addCoin out coin possibleOverwrite => exact CoinsViewCache.addCoin_spec h hAllowed hRun
  | spendCoin out =>
    cases hRun
    obtain ⟨hCoupled, hCoins, -⟩ := CoinsViewCache.spendCoin_spec h out
    exact ⟨hCoupled, hCoins⟩
  | accessCoin out | getCoin out =>
    cases hRun
    obtain ⟨hCoupled, hCoins, -⟩ := CoinsViewCache.fetchCoin_spec h out
    exact ⟨hCoupled, hCoins⟩
  | uncache out =>
    cases hRun
    exact CoinsViewCache.uncache_spec h out
  | flush => exact CoinsViewCache.flush_spec h hRun

/-- An operation that is not allowed marks a coin `FRESH` that the parent has. -/
theorem not_freshOk (h : v.IsCoupled) (hNot : ¬ op.Allowed v.shownCoin)
    (hRun : op.run v = some v') : ¬ v'.FreshOk := by
  intro hFresh
  cases op with
  | addCoin out coin possibleOverwrite =>
    obtain ⟨rfl, hBoth⟩ := Classical.not_imp.mp hNot
    rw [not_or, Bool.not_eq_true] at hBoth
    obtain ⟨old, hOld⟩ := ne_none_iff_exists'.mp hBoth.2
    obtain ⟨entry, hEntry, hMarked, hBase, hParent⟩ :=
      CoinsViewCache.fresh_of_overwrite hBoth.1 hOld hRun
    have hNone := hFresh.coinAt_eq_none (hBase ▸ h.base) hEntry hMarked
    rw [hBase, hParent] at hNone
    cases hNone
  | spendCoin out => exact hNot trivial
  | accessCoin out => exact hNot trivial
  | getCoin out => exact hNot trivial
  | uncache out => exact hNot trivial
  | flush => exact hNot trivial

/-- What an operation does to a flat map. -/
def apply (m : CoinMap) : CacheOp → CoinMap
  | .addCoin out coin _ => (m.addCoin out coin true).getD m
  | .spendCoin out => m.erase out
  | _ => m

omit [LawfulCoinsView V] in
theorem getElem?_apply (hRun : op.run v = some v') (m : CoinMap) (out : OutPoint) :
    (op.apply m).coins[out]? = op.update (fun out => m.coins[out]?) out := by
  cases op with
  | addCoin out' coin possibleOverwrite =>
    obtain ⟨hUnspent, -⟩ := CoinsViewCache.addCoin_eq_some hRun
    show ((m.addCoin out' coin true).getD m).coins[out]? =
      (if coin.isUnspendable then fun out => m.coins[out]?
        else Function.update (fun out => m.coins[out]?) out' (some coin)) out
    unfold CoinMap.addCoin
    rw [dif_neg (Bool.eq_false_iff.mp hUnspent)]
    split
    · rfl
    · show (m.coins.insert out' coin)[out]? = _
      rw [Column.getElem?_insert, Function.update_apply]
      exact if_congr eq_comm rfl rfl
  | spendCoin out' =>
    show (m.coins.erase out')[out]? = Function.update (fun out => m.coins[out]?) out' none out
    rw [Column.getElem?_erase, Function.update_apply]
    exact if_congr eq_comm rfl rfl
  | accessCoin out' => rfl
  | getCoin out' => rfl
  | uncache out' => rfl
  | flush => rfl

end CacheOp

/-! ## A cache over a cache -/

abbrev Stack := CoinsViewCache (CoinsViewCache CoinsViewDB)

inductive StackOp
  | top (op : CacheOp)
  | middle (op : CacheOp)
deriving DecidableEq

namespace StackOp

def op : StackOp → CacheOp
  | .top op => op
  | .middle op => op

/-- `Uncache` or `Flush` of one of the caches. -/
def isUpkeep (a : StackOp) : Bool :=
  match a.op with
  | .uncache _ => true
  | .flush => true
  | _ => false

end StackOp

namespace Stack

/-- Two new caches over a database. -/
def ofDb (db : CoinsViewDB) : Stack := ⟨∅, ∅, db⟩

/-- Coins are not added to or spent from a view while a cache over it has
entries; all else may be done to both caches at any time. -/
def step (s : Stack) : StackOp → Option Stack
  | .top op => op.run s
  | .middle op =>
    if op.changesCoins && !s.cacheCoins.isEmpty then none
    else (op.run s.base).map fun base => { s with base }

/-- The flat map after the first operations. -/
def flatRun (m : CoinMap) (act : Nat → StackOp) : Nat → CoinMap
  | 0 => m
  | i + 1 => (act i).op.apply (flatRun m act i)

end Stack

namespace Stack

/-- The top cache shows the coins of the flat map, and no cache has a `FRESH`
entry for an unspent coin of its parent. -/
structure Faithful (s : Stack) (m : CoinMap) : Prop where
  getCoin : ∀ out, (s.getCoin out).1 = m.coins[out]?
  accessCoin : ∀ out, (s.accessCoin out).1.unspent = m.coins[out]?
  freshTop : s.FreshOk
  freshMiddle : s.base.FreshOk

/-- The coupling that every allowed operation keeps. -/
structure Coupling (s : Stack) (m : CoinMap) : Prop where
  coupled : s.IsCoupled
  shows : s.shownCoin = fun out => m.coins[out]?

variable {s s' : Stack} {m : CoinMap} {a : StackOp}

theorem Coupling.faithful (h : Coupling s m) : Faithful s m where
  getCoin out := (CoinsViewCache.fetchCoin_spec h.coupled out).2.2.2.trans (congrFun h.shows out)
  accessCoin out := by
    refine Eq.trans ?_ (congrFun h.shows out)
    rw [← (CoinsViewCache.fetchCoin_spec h.coupled out).2.2.2]
    show ((s.fetchCoin out).1.elim Coin.empty fun entry => entry.coin).unspent = _
    cases (s.fetchCoin out).1 <;> rfl
  freshTop := h.coupled.freshOk
  freshMiddle := h.coupled.base.freshOk

theorem shownCoin_of_isEmpty (h : s.cacheCoins.isEmpty = true) :
    s.shownCoin = s.base.shownCoin := by
  funext out
  rw [CoinsViewCache.shownCoin, Std.ExtTreeMap.isEmpty_iff.mp h, getElem?_empty]
  rfl

theorem step_middle {op : CacheOp} (h : s.step (.middle op) = some s') :
    (op.changesCoins = true → s.cacheCoins.isEmpty = true) ∧
      ∃ base, op.run s.base = some base ∧ s' = { s with base } := by
  replace h : (if op.changesCoins && !s.cacheCoins.isEmpty then none
    else (op.run s.base).map fun base => { s with base }) = some s' := h
  split at h
  · cases h
  · next hEnabled =>
    obtain ⟨base, hRun, rfl⟩ := map_eq_some_iff.mp h
    refine ⟨fun hChanges => ?_, base, hRun, rfl⟩
    rw [hChanges, Bool.true_and, Bool.not_eq_true, Bool.not_eq_false'] at hEnabled
    exact hEnabled

theorem Coupling.step (h : Coupling s m) (hAllowed : a.op.Allowed fun out => m.coins[out]?)
    (hStep : s.step a = some s') : Coupling s' (a.op.apply m) := by
  cases a with
  | top op =>
    replace hStep : op.run s = some s' := hStep
    rw [← h.shows] at hAllowed
    obtain ⟨hCoupled, hShows⟩ := CacheOp.run_spec h.coupled hAllowed hStep
    refine ⟨hCoupled, hShows.trans (funext fun out => ?_)⟩
    rw [h.shows]
    exact (CacheOp.getElem?_apply hStep m out).symm
  | middle op =>
    obtain ⟨hEnabled, base, hRun, rfl⟩ := step_middle hStep
    cases hChanges : op.changesCoins with
    | true =>
      -- nothing is cached above the middle
      have hEmpty := hEnabled hChanges
      have hMiddle : s.base.shownCoin = fun out => m.coins[out]? :=
        (shownCoin_of_isEmpty hEmpty).symm.trans h.shows
      replace hAllowed : op.Allowed s.base.shownCoin := hMiddle ▸ hAllowed
      obtain ⟨hCoupled, hShows⟩ := CacheOp.run_spec h.coupled.base hAllowed hRun
      refine ⟨⟨hCoupled, fun out e he => ?_⟩, ?_⟩
      · rw [Std.ExtTreeMap.isEmpty_iff.mp hEmpty] at he
        cases getElem?_empty.symm.trans he
      · refine (shownCoin_of_isEmpty (s := ⟨s.cacheCoins, base⟩) hEmpty).trans (hShows.trans ?_)
        funext out
        rw [hMiddle]
        exact (CacheOp.getElem?_apply hRun m out).symm
    | false =>
      obtain ⟨hSame, hAllowed'⟩ := CacheOp.update_of_not_changesCoins hChanges s.base.shownCoin
      obtain ⟨hCoupled, hShows⟩ := CacheOp.run_spec h.coupled.base hAllowed' hRun
      rw [hSame] at hShows
      refine ⟨h.coupled.rebase hCoupled hShows, ?_⟩
      funext out
      refine Eq.trans ?_ (CacheOp.getElem?_apply hRun m out).symm
      rw [(CacheOp.update_of_not_changesCoins hChanges _).1, ← congrFun h.shows out]
      show CoinsViewCache.shows s.cacheCoins[out]? (base.shownCoin out) = _
      rw [hShows]
      rfl

/-- An operation that is not allowed leaves a wrong `FRESH` entry. -/
theorem Coupling.not_faithful (h : Coupling s m) {m' : CoinMap}
    (hNot : ¬ a.op.Allowed fun out => m.coins[out]?) (hStep : s.step a = some s') :
    ¬ Faithful s' m' := by
  intro hFaithful
  cases a with
  | top op =>
    replace hStep : op.run s = some s' := hStep
    rw [← h.shows] at hNot
    exact CacheOp.not_freshOk h.coupled hNot hStep hFaithful.freshTop
  | middle op =>
    obtain ⟨hEnabled, base, hRun, rfl⟩ := step_middle hStep
    cases hChanges : op.changesCoins with
    | true =>
      rw [← h.shows, shownCoin_of_isEmpty (hEnabled hChanges)] at hNot
      exact CacheOp.not_freshOk h.coupled.base hNot hRun hFaithful.freshMiddle
    | false => exact hNot (CacheOp.update_of_not_changesCoins hChanges _).2

end Stack

/-- The unspent coins of a database. -/
def CoinsViewDB.coinMap (db : CoinsViewDB) : CoinMap where
  coins := db.coins.filter fun _ coin => !coin.isSpent
  unspent out coin h := by
    rw [getElem?_filter'] at h
    exact Bool.not_eq_true' _ ▸ (filter_eq_some_iff.mp h).2

namespace Stack

theorem coupling_ofDb (db : CoinsViewDB) : Coupling (ofDb db) db.coinMap where
  coupled := by
    have hEmpty : ∀ (out : OutPoint) parent,
        CoinsViewCache.EntryOk (∅ : CoinsMap)[out]? parent := by
      intro out parent e he
      cases getElem?_empty.symm.trans he
    exact ⟨⟨trivial, fun out => hEmpty out _⟩, fun out => hEmpty out _⟩
  shows := by
    funext out
    rw [CoinsViewDB.coinMap, getElem?_filter']
    show db.coins[out]?.bind Coin.unspent = _
    cases db.coins[out]? with
    | none => rfl
    | some coin =>
      show (if coin.isSpent then none else some coin) = _
      rw [filter_some]
      cases coin.isSpent <;> rfl

variable {db : CoinsViewDB} {run : Nat → Stack} {act : Nat → StackOp} {n : Nat}

theorem coupling_run (hInit : run 0 = ofDb db) (hRun : Runs step run act n) {i : Nat} (hi : i ≤ n)
    (hAllowed : ∀ j < i, (act j).op.Allowed fun out => (flatRun db.coinMap act j).coins[out]?) :
    Coupling (run i) (flatRun db.coinMap act i) := by
  induction i with
  | zero =>
    rw [hInit]
    exact coupling_ofDb db
  | succ i ih =>
    have hBefore := ih (by omega) fun j hj => hAllowed j (by omega)
    exact hBefore.step (hAllowed i (by omega)) (hRun i (by omega))

/-- **Two caches over a database show a flat map**: in a run that throws
nothing, exactly if no coin is added over an unspent one without saying that it
may overwrite. -/
theorem faithful_iff (hInit : run 0 = ofDb db) (hRun : Runs step run act n) :
    ((∀ i ≤ n, Faithful (run i) (flatRun db.coinMap act i)) ∧
      ∀ i < n, (act i).isUpkeep = true →
        ∀ out, ((run (i + 1)).getCoin out).1 = ((run i).getCoin out).1) ↔
      ∀ i < n, (act i).op.Allowed fun out => (flatRun db.coinMap act i).coins[out]? := by
  constructor
  · rintro ⟨hFaithful, -⟩
    -- the first operation that is not allowed leaves an entry that is not right
    have hPrefix : ∀ i ≤ n, ∀ j < i,
        (act j).op.Allowed fun out => (flatRun db.coinMap act j).coins[out]? := by
      intro i
      induction i with
      | zero => exact fun _ j hj => absurd hj (Nat.not_lt_zero j)
      | succ i ih =>
        intro hi j hj
        have hBefore := ih (by omega)
        rcases Nat.lt_succ_iff_lt_or_eq.mp hj with hj | rfl
        · exact hBefore j hj
        · by_contra hNot
          have hCoupling := coupling_run hInit hRun (by omega) hBefore
          exact hCoupling.not_faithful hNot (hRun j (by omega)) (hFaithful (j + 1) hi)
    exact hPrefix n le_rfl
  · intro hAllowed
    have hFaithful : ∀ i ≤ n, Faithful (run i) (flatRun db.coinMap act i) := by
      intro i hi
      exact (coupling_run hInit hRun hi fun j hj => hAllowed j (by omega)).faithful
    refine ⟨hFaithful, fun i hi hUpkeep out => ?_⟩
    rw [(hFaithful (i + 1) hi).getCoin, (hFaithful i (by omega)).getCoin, flatRun]
    cases hOp : (act i).op <;> simp only [StackOp.isUpkeep, hOp, reduceCtorEq] at hUpkeep <;> rfl

def sampleOut : OutPoint := ⟨TxId.zero, 0⟩

def sampleCoin (sats : Int) : Coin := ⟨⟨sats, ⟨[0x51]⟩⟩, 1, false⟩

/-- A database with one coin. -/
def oneCoin : CoinsViewDB := ⟨(∅ : Column OutPoint Coin).insert sampleOut (sampleCoin 5)⟩

/-- Add a coin over that of the database, spend it, and flush both caches. -/
def overwriting (possibleOverwrite : Bool) : List StackOp :=
  [.top (.addCoin sampleOut (sampleCoin 7) possibleOverwrite), .top (.spendCoin sampleOut),
    .top .flush, .middle .flush]

def overwritingAct (possibleOverwrite : Bool) (i : Nat) : StackOp :=
  (overwriting possibleOverwrite).getD i (.top .flush)

/-- The unannounced coin is forgotten when it is spent, and the old one shows again. -/
theorem old_coin_reappears :
    ((overwriting false).foldlM step (ofDb oneCoin)).map (fun s => (s.getCoin sampleOut).1) =
      some (some (sampleCoin 5)) ∧
    (flatRun oneCoin.coinMap (overwritingAct false) 4).coins[sampleOut]? = none := by
  decide +kernel

/-- The announced coin is spent for good. -/
theorem announced_coin_spent :
    ((runOf step (ofDb oneCoin) (overwriting true) 1).getCoin sampleOut).1 = some (sampleCoin 7) ∧
      ((runOf step (ofDb oneCoin) (overwriting true) 4).getCoin sampleOut).1 = none := by
  have hSome : ((overwriting true).foldlM step (ofDb oneCoin)).isSome = true := by decide +kernel
  have hRuns : Runs step (runOf step (ofDb oneCoin) (overwriting true)) (overwritingAct true) 4 :=
    Runs.of_runOf hSome _
  have hAllowed : ∀ i < 4, (overwritingAct true i).op.Allowed fun out =>
      (flatRun oneCoin.coinMap (overwritingAct true) i).coins[out]? := by
    intro i hi
    interval_cases i
    · exact nofun
    · trivial
    · trivial
    · trivial
  obtain ⟨hFaithful, -⟩ := (faithful_iff rfl hRuns).mpr hAllowed
  refine ⟨((hFaithful 1 (by decide)).getCoin sampleOut).trans ?_,
    ((hFaithful 4 (by decide)).getCoin sampleOut).trans ?_⟩
  · decide +kernel
  · decide +kernel

end Stack

end Ergon
