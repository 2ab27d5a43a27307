import Ergon.Token.BatchInv

/-!
# Ergon — the order in which a batch is verified

`BatchProcessor.verify` takes the token transactions of a block in the order a
topological sort gives, which depends on the seed of a hash map. A transaction is verified
from its inputs alone, so its verdict is the same in every order. What is stored of
it also looks up the tokens its entries mention among those created so far. A
token that the payload mentions without spending it is found in some orders only.

* `Known` — the tokens that are known when a transaction is verified;
* `BatchInv.takenAt` — one transaction in the run of a whole order;
* `Agrees.step` — along another order, each transaction gets the same result;
* `verify_order_iff` — when the order does not matter.
-/

namespace Ergon

open Lib List

namespace BatchProcessor

variable {base : BatchDbData} {b : BatchProcessor} {s s' : BatchState}

/-! ## One transaction in a run -/

/-- What the transactions `rest` leave alone. -/
structure Later (rest : List TxNum) (s s' : BatchState) : Prop where
  kept : ∀ n, n ∉ rest → s'.processed.validTxs[n]? = s.processed.validTxs[n]? ∧
    s'.processed.spentTokens[n]? = s.processed.spentTokens[n]? ∧
    s'.processed.dbTokenTxs[n]? = s.processed.dbTokenTxs[n]?
  new : ∀ x : TxNum × TokenMeta × GenesisInfo, x.1 ∉ rest →
    (x ∈ s'.processed.newTokens ↔ x ∈ s.processed.newTokens)

theorem Later.refl : Later [] s s := ⟨fun _ _ => ⟨rfl, rfl, rfl⟩, fun _ _ => Iff.rfl⟩

theorem Later.trans {rest rest' : List TxNum} {s₁ s₂ s₃ : BatchState} (h : Later rest s₁ s₂)
    (h' : Later rest' s₂ s₃) : Later (rest ++ rest') s₁ s₃ := by
  constructor
  · intro n hn
    rw [mem_append, not_or] at hn
    obtain ⟨hValid, hSpent, hDb⟩ := h.kept n hn.1
    obtain ⟨hValid', hSpent', hDb'⟩ := h'.kept n hn.2
    exact ⟨hValid'.trans hValid, hSpent'.trans hSpent, hDb'.trans hDb⟩
  · intro x hx
    rw [mem_append, not_or] at hx
    exact (h'.new x hx.2).trans (h.new x hx.1)

variable {p : PreparedTx} {S : List (Option SpentToken)} {ctx : VerifyContext}

theorem After.later (h : After s p S ctx s') : Later [p.tx.txNum] s s' := by
  constructor
  · intro n hn
    exact h.others n fun hEq => hn (mem_singleton.mpr hEq)
  · intro x hx
    rw [h.newTokens, mem_append]
    refine or_iff_left fun hMem => hx ?_
    obtain ⟨y, -, rfl⟩ := mem_map.mp hMem
    exact mem_singleton_self _

variable {done rest : List TxNum}

theorem Prefix.later (hBase : BaseOk base b) (h : Prefix b done rest)
    (hInv : BatchInv base b done s) (hRun : rest.foldlM b.verifyByNum s = .ok s') :
    Later rest s s' := by
  induction rest generalizing done s with
  | nil =>
    cases pure_eq_ok.mp hRun
    exact .refl
  | cons n rest ih =>
    obtain ⟨s₁, hStep, hRest⟩ := bind_eq_ok.mp hRun
    obtain ⟨p, hp, rfl⟩ := h.nodes n mem_cons_self
    rw [verifyByNum_eq hBase hp] at hStep
    obtain ⟨hNot, hParents, hNext⟩ := h.next hp
    obtain ⟨S, ctx, -, -, -, hAfter⟩ := hInv.after hBase hp hNot hStep
    exact hAfter.later.trans (ih hNext (hInv.step hBase hp hNot hParents hStep) hRest)

/-- The tokens that are known once the transactions `done` have been verified, by the result
`s` of the whole run. -/
def Known (base : BatchDbData) (s : BatchState) (done : List TxNum) (B : BiMap TxNum TokenMeta) :
    Prop :=
  ∀ n m, (n, m) ∈ B ↔
    (n, m) ∈ base.tokenMetas ∨ (n ∈ done ∧ ∃ info, (n, m, info) ∈ s.processed.newTokens)

/-- A transaction in a run: what it is verified with, the tokens that are known by then, and
what is stored. -/
structure TakenAt (base : BatchDbData) (s : BatchState) (before : List TxNum) (p : PreparedTx)
    (S : List (Option SpentToken)) (ctx : VerifyContext) (B : BiMap TxNum TokenMeta) : Prop where
  computes : Computes base s.processed.validTxs p S ctx
  recorded : Recorded s p S ctx
  known : Known base s (before ++ [p.tx.txNum]) B
  good : AllGood B S
  creates : Creates B ctx p.colored
  stored : isStored p S (ctx.verify p.colored) = true → ∃ d,
    tokenTxToDb (tokenLinks B (ctx.verify p.colored).entries) S (ctx.verify p.colored)
      (hasMintVault p (ctx.verify p.colored)) = .ok d ∧
    s.processed.dbTokenTxs[p.tx.txNum]? = some d

theorem Computes.unique {validTxs : Column TxNum TokenTx} {S S' : List (Option SpentToken)}
    {ctx ctx' : VerifyContext} (h : Computes base validTxs p S ctx)
    (h' : Computes base validTxs p S' ctx') : S' = S ∧ ctx' = ctx := by
  obtain rfl := Except.ok.inj (h'.inputs.symm.trans h.inputs)
  exact ⟨rfl, Except.ok.inj (h'.context.symm.trans h.context)⟩

/-- The state right after a transaction knows the tokens created up to then. -/
theorem BatchInv.known (hInv : BatchInv base b done s) (hLater : Later rest s s')
    (hNodup : (done ++ rest).Nodup) : Known base s' done s.db.tokenMetas := by
  intro n m
  rw [hInv.metas]
  refine or_congr_right ⟨?_, ?_⟩
  · rintro ⟨info, hNew⟩
    have hDone : n ∈ done := by
      by_contra hNot
      exact (hInv.outside n hNot).2.2.2 _ hNew rfl
    have hLate : n ∉ rest := fun hn => (nodup_append.mp hNodup).2.2 n hDone n hn rfl
    exact ⟨hDone, info, (hLater.new (n, m, info) hLate).mpr hNew⟩
  · rintro ⟨hDone, info, hNew⟩
    have hLate : n ∉ rest := fun hn => (nodup_append.mp hNodup).2.2 n hDone n hn rfl
    exact ⟨info, (hLater.new (n, m, info) hLate).mp hNew⟩

theorem dbTokenTx_of_stored (hComp : Computes s.db s.processed.validTxs p S ctx)
    (hStep : verifyTokenTx s p = .ok s') (hStored : isStored p S (ctx.verify p.colored) = true) :
    ∃ d, tokenTxToDb (tokenLinks s'.db.tokenMetas (ctx.verify p.colored).entries) S
        (ctx.verify p.colored) (hasMintVault p (ctx.verify p.colored)) = .ok d ∧
      s'.processed.dbTokenTxs[p.tx.txNum]? = some d := by
  obtain ⟨S', ctx', hComp', hStep⟩ := verifyTokenTx_eq_ok.mp hStep
  obtain ⟨rfl, rfl⟩ := hComp.unique hComp'
  rw [if_pos hStored] at hStep
  obtain ⟨d, hd, rfl⟩ := hStep
  exact ⟨d, hd, (Column.getElem?_insert ..).trans (if_pos rfl)⟩

variable {before after : List TxNum}

theorem BatchInv.takenAt (hBase : BaseOk base b) (hp : p ∈ b.preparedTxs)
    (hOrder : IsTopoOrder b.graph (before ++ p.tx.txNum :: after))
    (hRun : (before ++ p.tx.txNum :: after).foldlM b.verifyByNum (.start base) = .ok s) :
    ∃ S ctx B, TakenAt base s before p S ctx B := by
  have hAll := Prefix.of_order hBase hOrder
  have hDone := (batchInv_of_order hBase hOrder hRun).1
  rw [foldlM_append] at hRun
  obtain ⟨s₁, hBefore, hRun⟩ := bind_eq_ok.mp hRun
  obtain ⟨s₂, hStep, hAfter⟩ := bind_eq_ok.mp hRun
  rw [verifyByNum_eq hBase hp] at hStep
  -- the run up to the transaction
  have hParents := parentsFirst_append.mp hAll.parents
  have hNodup := hAll.nodup
  rw [nil_append] at hParents hNodup
  have hInv₁ : BatchInv base b before s₁ := BatchInv.start.run hBase
    ⟨(nodup_append.mp hNodup).1, hParents.1, fun n hn => hAll.nodes n (mem_append_left _ hn)⟩ hBefore
  have hRest : Prefix b before (p.tx.txNum :: after) :=
    ⟨hNodup, hParents.2, fun n hn => hAll.nodes n (mem_append_right _ hn)⟩
  obtain ⟨hNot, hFirst, hNext⟩ := hRest.next hp
  obtain ⟨S, ctx, hComp, hGood, -, hChanged⟩ := hInv₁.after hBase hp hNot hStep
  have hInv₂ := hInv₁.step hBase hp hNot hFirst hStep
  have hLater := hNext.later hBase hInv₂ hAfter
  -- nothing it spends changes later
  have hComp' : Computes base s.processed.validTxs p S ctx := by
    refine hComp.congr fun n hn => ((hChanged.later.trans hLater).kept n ?_).1
    rw [singleton_append]
    intro hMem
    have hEarly := hFirst n hn (hRest.nodes n hMem)
    exact (nodup_append.mp hNodup).2.2 n hEarly n hMem rfl
  obtain ⟨S', ctx', hVerified⟩ :=
    hDone.verified p hp (mem_append_right _ mem_cons_self)
  obtain ⟨rfl, rfl⟩ := hComp'.unique hVerified.computes
  refine ⟨S', ctx', s₂.db.tokenMetas, hComp', hVerified.recorded,
    hInv₂.known hLater hNext.nodup, ?_, hInv₂.creates hChanged.recorded, ?_⟩
  · exact hGood.mono fun q hq => (hChanged.metas q.1 q.2).mpr (.inl hq)
  · intro hStored
    have hHere : Computes s₁.db s₁.processed.validTxs p S' ctx' :=
      ⟨(hInv₁.txTokenInputs_eq hBase _ _).trans hComp.inputs,
        (hInv₁.verifyContext_eq p S').trans hComp.context⟩
    obtain ⟨d, hd, hGet⟩ := dbTokenTx_of_stored hHere hStep hStored
    have hLate : p.tx.txNum ∉ after := (nodup_cons.mp (nodup_append.mp hNodup).2.1).1
    exact ⟨d, hd, (hLater.kept _ hLate).2.2.trans hGet⟩

/-- A transaction in the run of an order. -/
theorem exists_takenAt (hBase : BaseOk base b) {order : List TxNum}
    (hOrder : IsTopoOrder b.graph order)
    (hRun : order.foldlM b.verifyByNum (.start base) = .ok s)
    (hp : p ∈ b.preparedTxs) :
    ∃ before after S ctx B, order = before ++ p.tx.txNum :: after ∧
      TakenAt base s before p S ctx B := by
  have hMem := (batchInv_of_order hBase hOrder hRun).2 p hp
  obtain ⟨before, after, rfl⟩ := append_of_mem hMem
  obtain ⟨S, ctx, B, hTaken⟩ := BatchInv.takenAt hBase hp hOrder hRun
  exact ⟨before, after, S, ctx, B, rfl, hTaken⟩

/-! ## What is listed -/

variable {B B' : BiMap TxNum TokenMeta} {entries : List TokenTxEntry}

/-- The entries are linked alike if their tokens and groups are found alike. -/
theorem tokenLinks_congr
    (hMeta : ∀ e ∈ entries, B'.getByRight e.tokenMeta = B.getByRight e.tokenMeta)
    (hGroup : ∀ e ∈ entries, ∀ g, e.groupTokenMeta = some g → B'.getByRight g = B.getByRight g) :
    tokenLinks B' entries = tokenLinks B entries := by
  refine foldl_ext _ _ _ fun l e he => ?_
  unfold addEntry
  rw [hMeta e he]
  cases hg : e.groupTokenMeta with
  | none => rfl
  | some g => simp only [hGroup e he g hg]

/-- Two sets of known tokens that differ in tokens the entries do not mention. -/
theorem tokenLinks_eq_of_known {order done done' : List TxNum} (hInv : BatchInv base b order s)
    (hKnown : Known base s done B) (hKnown' : Known base s done' B')
    (hGrouped : GroupedEntries B entries) (hGrouped' : GroupedEntries B' entries)
    (hSame : ∀ e ∈ entries, ∀ n info, (n, e.tokenMeta, info) ∈ s.processed.newTokens →
      (n ∈ done ↔ n ∈ done')) : tokenLinks B' entries = tokenLinks B entries := by
  refine tokenLinks_congr ?_ ?_
  · intro e he
    refine Option.ext fun n => ?_
    rw [BiMap.getByRight_eq_some, BiMap.getByRight_eq_some, hKnown', hKnown]
    refine or_congr_right ⟨?_, ?_⟩
    · rintro ⟨hDone, info, hNew⟩
      exact ⟨(hSame e he n info hNew).mpr hDone, info, hNew⟩
    · rintro ⟨hDone, info, hNew⟩
      exact ⟨(hSame e he n info hNew).mp hDone, info, hNew⟩
  · -- a group is known to both, and it has one creator
    intro e he g hg
    obtain ⟨n, hn⟩ := (hGrouped.created e he g hg).2
    obtain ⟨n', hn'⟩ := (hGrouped'.created e he g hg).2
    have hAll : ∀ {done B k}, Known base s done B → (k, g) ∈ B → (k, g) ∈ s.db.tokenMetas :=
      fun hKnown hk => (hInv.metas _ g).mpr (((hKnown _ g).mp hk).imp_right And.right)
    obtain rfl := BiMap.left_inj (hAll hKnown hn) (hAll hKnown' hn')
    rw [BiMap.getByRight_eq_some.mpr hn, BiMap.getByRight_eq_some.mpr hn']

/-- The transactions that are listed: the creators of the tokens that are mentioned and known. -/
theorem TakenAt.mem_tokenTxNums {before : List TxNum} {B : BiMap TxNum TokenMeta}
    (h : TakenAt base s before p S ctx B) {d : DbTokenTx}
    (hd : tokenTxToDb (tokenLinks B (ctx.verify p.colored).entries) S (ctx.verify p.colored)
      (hasMintVault p (ctx.verify p.colored)) = .ok d)
    {n : TxNum} :
    n ∈ d.tokenTxNums ↔ ∃ m, (n, m) ∈ B ∧ ∃ e ∈ (ctx.verify p.colored).entries, Lists e m := by
  have hGood := h.good
  rw [← h.computes.spentTokens_eq] at hGood
  have hLinks := linksOf_tokenLinks (groupedEntries_verify p.wellFormed hGood h.creates)
  rw [(stores_of_tokenTxToDb hd).nums, mem_map]
  constructor
  · rintro ⟨⟨k, m⟩, hMem, rfl⟩
    exact ⟨m, hLinks.tokens _ hMem, ((hLinks.metas m).mp (mem_map.mpr ⟨_, hMem, rfl⟩)).2⟩
  · rintro ⟨m, hn, hLists⟩
    obtain ⟨⟨k, m'⟩, hMem, rfl⟩ := mem_map.mp ((hLinks.metas m).mpr ⟨⟨n, hn⟩, hLists⟩)
    exact ⟨_, hMem, BiMap.left_inj (hLinks.tokens _ hMem) hn⟩

/-! ## Another order -/

/-- The results of two runs are the same for the transactions `done`. -/
structure Agrees (done : List TxNum) (s s' : BatchState) : Prop where
  columns : ∀ n ∈ done, s'.processed.validTxs[n]? = s.processed.validTxs[n]? ∧
    s'.processed.spentTokens[n]? = s.processed.spentTokens[n]? ∧
    s'.processed.dbTokenTxs[n]? = s.processed.dbTokenTxs[n]?
  new : ∀ x : TxNum × TokenMeta × GenesisInfo, x.1 ∈ done →
    (x ∈ s'.processed.newTokens ↔ x ∈ s.processed.newTokens)

theorem Agrees.known {done : List TxNum} (h : Agrees done s s') (hInv : BatchInv base b done s') :
    Known base s done s'.db.tokenMetas := by
  intro n m
  rw [hInv.metas]
  refine or_congr_right ⟨?_, ?_⟩
  · rintro ⟨info, hNew⟩
    obtain ⟨_, _, _, hDone, _⟩ := hInv.exists_of_new hNew
    exact ⟨hDone, info, (h.new (n, m, info) hDone).mp hNew⟩
  · rintro ⟨hDone, info, hNew⟩
    exact ⟨info, (h.new (n, m, info) hDone).mpr hNew⟩

/-- What a transaction spends is the same in both runs once its parents are done. -/
theorem Agrees.computes {order done : List TxNum} (h : Agrees done s s')
    (hFull : BatchInv base b order s) (hInv : BatchInv base b done s')
    (hFirst : ∀ n ∈ p.tx.inputNums, (∃ q ∈ b.preparedTxs, q.tx.txNum = n) → n ∈ done)
    (hComp : Computes base s.processed.validTxs p S ctx) :
    Computes base s'.processed.validTxs p S ctx := by
  refine hComp.congr fun n hn => ?_
  by_cases hNode : ∃ q ∈ b.preparedTxs, q.tx.txNum = n
  · exact (h.columns n (hFirst n hn hNode)).1
  · -- the batch has no such transaction
    have hNone := (hInv.outside n fun hDone => hNode (hInv.prepared n hDone)).1
    have hNone' := (hFull.outside n fun hDone => hNode (hFull.prepared n hDone)).1
    rw [hNone, hNone']

theorem Agrees.step (hBase : BaseOk base b) {order before done : List TxNum} (h : Agrees done s s')
    (hFull : BatchInv base b order s) (hInv : BatchInv base b done s') (hp : p ∈ b.preparedTxs)
    (hNot : p.tx.txNum ∉ done)
    (hFirst : ∀ n ∈ p.tx.inputNums, (∃ q ∈ b.preparedTxs, q.tx.txNum = n) → n ∈ done)
    {B : BiMap TxNum TokenMeta} (hTaken : TakenAt base s before p S ctx B)
    (hSame : isStored p S (ctx.verify p.colored) = true →
      ∀ e ∈ (ctx.verify p.colored).entries, ∀ n info,
        (n, e.tokenMeta, info) ∈ s.processed.newTokens → (n ∈ before ↔ n ∈ done))
    :
    ∃ s'', verifyTokenTx s' p = .ok s'' ∧ Agrees (done ++ [p.tx.txNum]) s s'' := by
  have hComp := h.computes hFull hInv hFirst hTaken.computes
  have hHere : Computes s'.db s'.processed.validTxs p S ctx :=
    ⟨(hInv.txTokenInputs_eq hBase _ _).trans hComp.inputs,
      (hInv.verifyContext_eq p S).trans hComp.context⟩
  have hRec := hTaken.recorded
  -- the transaction is verified with the same result, if what is stored is the same
  suffices hStep : ∃ s'', verifyTokenTx s' p = .ok s'' ∧
      s''.processed.dbTokenTxs[p.tx.txNum]? = s.processed.dbTokenTxs[p.tx.txNum]? by
    obtain ⟨s'', hStep, hDb⟩ := hStep
    obtain ⟨S', ctx', hComp', -, -, hAfter⟩ := hInv.after hBase hp hNot hStep
    obtain ⟨rfl, rfl⟩ := hComp.unique hComp'
    refine ⟨s'', hStep, ?_, ?_⟩
    · intro n hn
      rcases mem_append.mp hn with hn | hn
      · obtain ⟨hValid, hSpent, hDb'⟩ := hAfter.later.kept n
          fun hEq => hNot (mem_singleton.mp hEq ▸ hn)
        obtain ⟨hValid', hSpent', hDb''⟩ := h.columns n hn
        exact ⟨hValid.trans hValid', hSpent.trans hSpent', hDb'.trans hDb''⟩
      · rw [mem_singleton.mp hn]
        exact ⟨hAfter.recorded.valid.trans hRec.valid.symm,
          hAfter.recorded.spent.trans hRec.spent.symm, hDb⟩
    · rintro ⟨n, m, info⟩ hn
      rcases mem_append.mp hn with hn | hn
      · exact (hAfter.later.new _ fun hEq => hNot (mem_singleton.mp hEq ▸ hn)).trans
          (h.new _ hn)
      · obtain rfl : n = p.tx.txNum := mem_singleton.mp hn
        exact (hAfter.recorded.new m info).trans (hRec.new m info).symm
  by_cases hStored : isStored p S (ctx.verify p.colored) = true
  · obtain ⟨d, hd, hGet⟩ := hTaken.stored hStored
    have hNext := hInv.knownNext hBase hp hNot hComp
    have hKnown : Known base s (done ++ [p.tx.txNum])
        (addNewToken s' p.tx.txNum (newToken (ctx.verify p.colored))).db.tokenMetas := by
      intro n m
      rw [hNext.mem, h.known hInv, or_assoc]
      refine or_congr_right ?_
      rw [mem_append, mem_singleton, or_and_right]
      refine or_congr_right (and_congr_right fun hn => exists_congr fun info => ?_)
      rw [hn]
      exact (hRec.new m info).symm
    have hSpent := hComp.spentTokens_eq
    have hLinks := tokenLinks_eq_of_known hFull hTaken.known hKnown
      (groupedEntries_verify p.wellFormed (hSpent ▸ hTaken.good) hTaken.creates)
      (groupedEntries_verify p.wellFormed (hSpent ▸ hNext.good) hNext.creates) (by
        intro e he n info hNew
        rw [mem_append, mem_append, hSame hStored e he n info hNew])
    have hStep : verifyTokenTx s' p = .ok (storeTokenTx
        (addNewToken s' p.tx.txNum (newToken (ctx.verify p.colored))) p.tx.txNum d
        (ctx.verify p.colored) S) := by
      refine verifyTokenTx_eq_ok.mpr ⟨S, ctx, hHere, ?_⟩
      rw [if_pos hStored]
      exact ⟨d, (congrArg (tokenTxToDb · S _ _) hLinks).trans hd, rfl⟩
    exact ⟨_, hStep, ((Column.getElem?_insert ..).trans (if_pos rfl)).trans hGet.symm⟩
  · refine ⟨s', verifyTokenTx_eq_ok.mpr ⟨S, ctx, hHere, ?_⟩, ?_⟩
    · rw [if_neg hStored]
    · have hNone := hRec.dbTx
      rw [if_neg hStored] at hNone
      rw [hNone, (hInv.outside _ hNot).2.2.1]

/-- Every token of the batch that a transaction mentions is its own, or one of the two
transactions depends on the other. -/
def NoLooseMention (b : BatchProcessor) (batch : ProcessedTokenTxBatch) : Prop :=
  ∀ p ∈ b.preparedTxs, ∀ t, batch.validTxs[p.tx.txNum]? = some t → ∀ e ∈ t.entries, ∀ n info,
    (n, e.tokenMeta, info) ∈ batch.newTokens →
      n = p.tx.txNum ∨ b.graph.Precedes n p.tx.txNum ∨ b.graph.Precedes p.tx.txNum n

theorem Agrees.run (hBase : BaseOk base b) {order : List TxNum} (hOrder : IsTopoOrder b.graph order)
    (hRun : order.foldlM b.verifyByNum (.start base) = .ok s)
    (hMention : NoLooseMention b s.processed) (h : Agrees done s s')
    (hInv : BatchInv base b done s') (hRest : Prefix b done rest)
    (hOrder' : IsTopoOrder b.graph (done ++ rest)) :
    ∃ s'', rest.foldlM b.verifyByNum s' = .ok s'' ∧ Agrees (done ++ rest) s s'' := by
  induction rest generalizing done s' with
  | nil => exact ⟨s', rfl, (append_nil done).symm ▸ h⟩
  | cons n rest ih =>
    obtain ⟨p, hp, rfl⟩ := hRest.nodes n mem_cons_self
    obtain ⟨hNot, hFirst, hNext⟩ := hRest.next hp
    obtain ⟨before, after, S, ctx, B, rfl, hTaken⟩ := exists_takenAt hBase hOrder hRun hp
    have hFull := (batchInv_of_order hBase hOrder hRun).1
    obtain ⟨s₁, hStep, hAgrees⟩ := h.step hBase hFull hInv hp hNot hFirst hTaken (by
      intro hStored e he n info hNew
      have hValid := hTaken.recorded.valid
      rw [if_pos hStored] at hValid
      exact hOrder.mem_before_iff hOrder' (nodup_graph hBase)
        (hMention p hp _ hValid e he n info hNew))
    have hInv₁ := hInv.step hBase hp hNot hFirst hStep
    rw [← singleton_append, ← append_assoc] at hOrder' ⊢
    obtain ⟨s'', hRun', hAgrees'⟩ := ih hAgrees hInv₁ hNext hOrder'
    refine ⟨s'', bind_eq_ok.mpr ⟨s₁, ?_, hRun'⟩, hAgrees'⟩
    exact (verifyByNum_eq hBase hp).trans hStep

/-! ## Transactions without payload -/

/-- What the loop over the transactions `nums` without payload leaves alone. -/
structure Kept (nums : List TxNum) (s s' : BatchState) : Prop where
  validTxs : s'.processed.validTxs = s.processed.validTxs
  newTokens : s'.processed.newTokens = s.processed.newTokens
  dbTokenTxs : ∀ n, n ∉ nums → s'.processed.dbTokenTxs[n]? = s.processed.dbTokenTxs[n]?

theorem kept_of_processNonTokenTx {tx : IndexTx} (h : processNonTokenTx s tx = .ok s') :
    Kept [tx.txNum] s s' := by
  obtain ⟨n, -, h⟩ := processNonTokenTx_eq_ok.mp h
  split at h
  · obtain ⟨S, -, rfl⟩ := h
    refine ⟨rfl, rfl, fun k hk => ?_⟩
    exact (Column.getElem?_insert ..).trans
      (if_neg fun hEq => hk (mem_singleton.mpr hEq.symm))
  · subst h
    exact ⟨rfl, rfl, fun _ _ => rfl⟩

theorem kept_of_foldlM {txs : List IndexTx} (h : txs.foldlM processNonTokenTx s = .ok s') :
    Kept (txs.map fun tx => tx.txNum) s s' := by
  induction txs generalizing s with
  | nil =>
    cases pure_eq_ok.mp h
    exact ⟨rfl, rfl, fun _ _ => rfl⟩
  | cons tx txs ih =>
    obtain ⟨s₁, hStep, hRest⟩ := bind_eq_ok.mp h
    have hFirst := kept_of_processNonTokenTx hStep
    have hLater := ih hRest
    refine ⟨hLater.validTxs.trans hFirst.validTxs, hLater.newTokens.trans hFirst.newTokens, ?_⟩
    intro n hn
    rw [map_cons, mem_cons, not_or] at hn
    exact (hLater.dbTokenTxs n hn.2).trans
      (hFirst.dbTokenTxs n fun hEq => hn.1 (mem_singleton.mp hEq))

/-- Two batches with the same rows and the same set of new tokens. -/
structure SameBatch (batch batch' : ProcessedTokenTxBatch) : Prop where
  dbTokenTxs : batch'.dbTokenTxs = batch.dbTokenTxs
  validTxs : batch'.validTxs = batch.validTxs
  spentTokens : batch'.spentTokens = batch.spentTokens
  newTokens : ∀ x, x ∈ batch'.newTokens ↔ x ∈ batch.newTokens

/-- Two states that the second loop cannot tell apart. -/
structure SameState (s s' : BatchState) : Prop where
  batch : SameBatch s.processed s'.processed
  tokenTxs : s'.db.tokenTxs = s.db.tokenTxs
  metas : ∀ n m, (n, m) ∈ s'.db.tokenMetas ↔ (n, m) ∈ s.db.tokenMetas

theorem SameState.batchMeta_eq (h : SameState s s') : batchMeta s'.db = batchMeta s.db := by
  funext n
  have hGet : s'.db.tokenMetas.getByLeft n = s.db.tokenMetas.getByLeft n := by
    refine Option.ext fun m => ?_
    rw [BiMap.getByLeft_eq_some, BiMap.getByLeft_eq_some, h.metas]
  rw [batchMeta, batchMeta, hGet]

theorem SameState.txTokenInputs_eq (h : SameState s s') (tx : IndexTx) :
    txTokenInputs s'.db s'.processed.validTxs tx = txTokenInputs s.db s.processed.validTxs tx := by
  unfold txTokenInputs tokenOutput
  rw [h.tokenTxs, h.batchMeta_eq, h.batch.validTxs]

theorem SameState.addNonTokenInput_eq (h : SameState s s') :
    addNonTokenInput s' = addNonTokenInput s := by
  funext n x
  unfold addNonTokenInput findDbTokenTx
  rw [h.tokenTxs, h.batch.dbTokenTxs]

theorem SameState.step {s₁ : BatchState} {tx : IndexTx} (h : SameState s s')
    (hStep : processNonTokenTx s tx = .ok s₁) :
    ∃ s₁', processNonTokenTx s' tx = .ok s₁' ∧ SameState s₁ s₁' := by
  obtain ⟨n, hn, hStep⟩ := processNonTokenTx_eq_ok.mp hStep
  rw [← h.addNonTokenInput_eq] at hn
  split at hStep
  · next hAny =>
    obtain ⟨S, hS, rfl⟩ := hStep
    rw [← h.txTokenInputs_eq] at hS
    refine ⟨_, processNonTokenTx_eq_ok.mpr ⟨n, hn, by rw [if_pos hAny]; exact ⟨S, hS, rfl⟩⟩, ?_⟩
    refine ⟨⟨?_, h.batch.validTxs, ?_, h.batch.newTokens⟩, h.tokenTxs, h.metas⟩
    · exact congrArg (fun col => Std.ExtTreeMap.insert col tx.txNum _) h.batch.dbTokenTxs
    · exact congrArg (fun col => Std.ExtTreeMap.insert col tx.txNum S) h.batch.spentTokens
  · next hAny =>
    subst hStep
    exact ⟨s', processNonTokenTx_eq_ok.mpr ⟨n, hn, by rw [if_neg hAny]⟩, h⟩

theorem SameState.run {s₁ : BatchState} {txs : List IndexTx} (h : SameState s s')
    (hRun : txs.foldlM processNonTokenTx s = .ok s₁) :
    ∃ s₁', txs.foldlM processNonTokenTx s' = .ok s₁' ∧ SameState s₁ s₁' := by
  induction txs generalizing s s' with
  | nil =>
    cases pure_eq_ok.mp hRun
    exact ⟨s', rfl, h⟩
  | cons tx txs ih =>
    obtain ⟨s₂, hStep, hRest⟩ := bind_eq_ok.mp hRun
    obtain ⟨s₂', hStep', hSame⟩ := h.step hStep
    obtain ⟨s₁', hRest', hSame'⟩ := ih hSame hRest
    exact ⟨s₁', bind_eq_ok.mpr ⟨s₂', hStep', hRest'⟩, hSame'⟩

variable {order order' : List TxNum}

/-- Runs of all token transactions that agree give the same state. -/
theorem Agrees.sameState (h : Agrees order' s s') (hInv : BatchInv base b order s)
    (hInv' : BatchInv base b order' s') (hSame : ∀ n, n ∈ order ↔ n ∈ order') : SameState s s' := by
  have hColumns : ∀ n : TxNum, s'.processed.validTxs[n]? = s.processed.validTxs[n]? ∧
      s'.processed.spentTokens[n]? = s.processed.spentTokens[n]? ∧
      s'.processed.dbTokenTxs[n]? = s.processed.dbTokenTxs[n]? := by
    intro n
    by_cases hn : n ∈ order'
    · exact h.columns n hn
    · obtain ⟨hValid, hSpent, hDb, -⟩ := hInv.outside n (mt (hSame n).mp hn)
      obtain ⟨hValid', hSpent', hDb', -⟩ := hInv'.outside n hn
      exact ⟨hValid'.trans hValid.symm, hSpent'.trans hSpent.symm, hDb'.trans hDb.symm⟩
  have hNew : ∀ x, x ∈ s'.processed.newTokens ↔ x ∈ s.processed.newTokens := by
    rintro ⟨n, m, info⟩
    by_cases hn : n ∈ order'
    · exact h.new _ hn
    · refine iff_of_false (fun hMem => ?_) fun hMem => ?_
      · exact (hInv'.outside n hn).2.2.2 _ hMem rfl
      · exact (hInv.outside n (mt (hSame n).mp hn)).2.2.2 _ hMem rfl
  refine ⟨⟨?_, ?_, ?_, hNew⟩, hInv'.tokenTxs.trans hInv.tokenTxs.symm, ?_⟩
  · exact Std.ExtTreeMap.ext_getElem? fun n => (hColumns n).2.2
  · exact Std.ExtTreeMap.ext_getElem? fun n => (hColumns n).1
  · exact Std.ExtTreeMap.ext_getElem? fun n => (hColumns n).2.1
  · intro n m
    rw [hInv.metas, hInv'.metas]
    exact or_congr_right (exists_congr fun info => hNew _)

/-! ## The whole batch -/

/-- Every order that lists parents first gives the same batch. -/
def OrderIndependent (b : BatchProcessor) (base : BatchDbData) : Prop :=
  ∀ order order' batch, IsTopoOrder b.graph order → IsTopoOrder b.graph order' →
    b.verify (some order) base = .ok batch →
    ∃ batch', b.verify (some order') base = .ok batch' ∧ SameBatch batch batch'

variable {batch : ProcessedTokenTxBatch}

/-- The order does not matter to transactions that mention what they depend on. -/
theorem sameBatch_of_noLooseMention (hBase : BaseOk base b) (hOrder : IsTopoOrder b.graph order)
    (hOrder' : IsTopoOrder b.graph order') (hVerify : b.verify (some order) base = .ok batch)
    (hMention : NoLooseMention b batch) :
    ∃ batch', b.verify (some order') base = .ok batch' ∧ SameBatch batch batch' := by
  obtain ⟨s, s₁, hTokens, hOthers, rfl⟩ := verify_eq_ok.mp hVerify
  have hKept := kept_of_foldlM hOthers
  have hMention' : NoLooseMention b s.processed := by
    unfold NoLooseMention at hMention
    rwa [hKept.validTxs, hKept.newTokens] at hMention
  have hStart : Agrees [] s (.start base) :=
    ⟨fun _ hn => absurd hn not_mem_nil, fun _ hn => absurd hn not_mem_nil⟩
  obtain ⟨s', hTokens', hAgrees⟩ := hStart.run hBase hOrder hTokens hMention' .start
    (Prefix.of_order hBase hOrder') hOrder'
  have hSame := hAgrees.sameState (batchInv_of_order hBase hOrder hTokens).1
    (batchInv_of_order hBase hOrder' hTokens').1
    fun n => (hOrder.perm.trans hOrder'.perm.symm).mem_iff
  obtain ⟨s₁', hOthers', hSame'⟩ := hSame.run hOthers
  exact ⟨_, verify_eq_ok.mpr ⟨s', s₁', hTokens', hOthers', rfl⟩, hSame'.batch⟩

/-- What is listed for a transaction, given where in the order it is verified. -/
theorem mem_tokenTxNums_of_verify (hBase : BaseOk base b)
    (hOthers : ∀ tx ∈ b.nonTokenTxs, ∀ p ∈ b.preparedTxs, tx.txNum ≠ p.tx.txNum)
    (hp : p ∈ b.preparedTxs) (hOrder : IsTopoOrder b.graph (before ++ p.tx.txNum :: after))
    (hVerify : b.verify (some (before ++ p.tx.txNum :: after)) base = .ok batch) {t : TokenTx}
    (hValid : batch.validTxs[p.tx.txNum]? = some t) :
    ∃ d, batch.dbTokenTxs[p.tx.txNum]? = some d ∧ ∀ n, n ∈ d.tokenTxNums ↔
      ∃ m, ((n, m) ∈ base.tokenMetas ∨
          (n ∈ before ++ [p.tx.txNum] ∧ ∃ info, (n, m, info) ∈ batch.newTokens)) ∧
        ∃ e ∈ t.entries, Lists e m := by
  obtain ⟨s, s₁, hTokens, hRest, rfl⟩ := verify_eq_ok.mp hVerify
  have hKept := kept_of_foldlM hRest
  obtain ⟨S, ctx, B, hTaken⟩ := BatchInv.takenAt hBase hp hOrder hTokens
  rw [hKept.validTxs, hTaken.recorded.valid] at hValid
  split at hValid
  · next hStored =>
    cases hValid
    obtain ⟨d, hd, hGet⟩ := hTaken.stored hStored
    have hOther : p.tx.txNum ∉ b.nonTokenTxs.map fun tx => tx.txNum := by
      intro hMem
      obtain ⟨tx, hTx, hEq⟩ := mem_map.mp hMem
      exact hOthers tx hTx p hp hEq
    refine ⟨d, (hKept.dbTokenTxs _ hOther).trans hGet, fun n => ?_⟩
    rw [hTaken.mem_tokenTxNums hd, hKept.newTokens]
    exact exists_congr fun m => and_congr_left fun _ => hTaken.known n m
  · cases hValid

def olderToken : TokenMeta := ⟨.fill 0x55, .slp .fungible⟩

def olderTokenData : BatchDbData where
  tokenTxs := (∅ : Column TxNum DbTokenTx).insert 5 ⟨[5], ∅, [.noToken], [.noToken, .atoms 0 7], 0⟩
  tokenMetas := BiMap.empty.insert 5 olderToken
  genesisInfos := ∅

def createsToken : IndexTx where
  tx :=
    { txid := .fill 0x10
      version := 2
      inputs := [⟨⟨.fill 0x04, 0⟩, ⟨[]⟩, 0, none⟩]
      outputs := [⟨0, ⟨[0x6a, 4] ++ slpLokadId ++ [1, 1, 7] ++ genesisBytes ++
        [0x4c, 0, 0x4c, 0, 0x4c, 0, 0x4c, 0, 1, 0, 0x4c, 0, 8, 0, 0, 0, 0, 0, 0, 0, 5]⟩⟩,
        ⟨546, ⟨[0x51]⟩⟩]
      locktime := 0 }
  txNum := 10
  isCoinbase := false
  inputNums := [4]

def namesToken : IndexTx where
  tx :=
    { txid := .fill 0x11
      version := 2
      inputs := [⟨⟨.fill 0x55, 1⟩, ⟨[]⟩, 0, none⟩]
      outputs := [⟨0, ⟨[0x6a, 4] ++ slpLokadId ++ [1, 1, 4] ++ sendBytes ++
        [32] ++ createsToken.tx.txid.val.reverse ++ [8, 0, 0, 0, 0, 0, 0, 0, 3]⟩⟩,
        ⟨546, ⟨[0x51]⟩⟩]
      locktime := 0 }
  txNum := 11
  isCoinbase := false
  inputNums := [5]

/-- What is listed for a transaction after the batch was verified in an order. -/
def listedFor (order : List TxNum) (n : TxNum) : Option (List TxNum) :=
  ((prepare [createsToken, namesToken]).verify (some order) olderTokenData).toOption.bind
    fun batch => batch.dbTokenTxs[n]?.map (·.tokenTxNums)

theorem baseOk_olderTokenData : BaseOk olderTokenData (prepare [createsToken, namesToken]) := by
  have hNum : ∀ p ∈ (prepare [createsToken, namesToken]).preparedTxs, p.tx.txNum ≠ 5 := by
    decide +kernel
  have hTxid : ∀ p ∈ (prepare [createsToken, namesToken]).preparedTxs,
      olderToken.tokenId ≠ p.tx.tx.txid := by decide +kernel
  have hMeta : ∀ n m, (n, m) ∈ olderTokenData.tokenMetas → n = 5 ∧ m = olderToken := by
    intro n m hMem
    rcases BiMap.mem_insert.mp hMem with hEq | ⟨hMem, -⟩
    · exact hEq
    · exact absurd hMem (BiMap.not_mem_empty _)
  refine ⟨by decide +kernel, by decide +kernel, ?_, ?_, ?_, ?_⟩
  · intro p hp m hMem
    exact hNum p hp (hMeta _ m hMem).1
  · intro p hp n m hMem
    rw [(hMeta n m hMem).2]
    exact hTxid p hp
  · intro n d hd p hp
    obtain ⟨-, rfl⟩ := Column.getElem?_singleton.mp hd
    exact fun hMem => hNum p hp (mem_singleton.mp hMem)
  · intro n d hd t ht spent hSpent
    obtain ⟨-, rfl⟩ := Column.getElem?_singleton.mp hd
    rcases mem_cons.mp ht with rfl | ht
    · cases hSpent
    · obtain rfl := mem_singleton.mp ht
      cases hSpent
      exact ⟨fun _ hByte => TokenVariant.noConfusion hByte,
        fun _ => ⟨5, BiMap.mem_insert.mpr (.inl ⟨rfl, rfl⟩)⟩, fun _ hGroup => nomatch hGroup⟩

end BatchProcessor

end Ergon
