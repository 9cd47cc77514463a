/-
# The ids of generated history rows

Several generators insert rows into the history of the same warehouses.  A generator has a counter
for every district and advances it by the number of generators, so that the ids that are drawn for a
district differ.  A row is inserted for a district that is drawn separately.
-/
import Penteract.Procedures

namespace Slog.Benchx

open List Function

/-! ## Counters -/

abbrev kDistPerWare : ℕ := 10
def kOrdPerDist : ℤ := 3000

structure BenchXIds where
  oId : ℤ
  noOId : ℤ
  hId : ℤ
  deriving DecidableEq, Repr

def BenchXIds.init (i : ℤ) : BenchXIds where
  oId := kOrdPerDist + i
  noOId := kOrdPerDist - 900 + i
  hId := i + 1

/-- Warehouses and districts are numbered from 1; the arrays are indexed from 0. -/
structure BenchXIdGenerator (numWarehouses : ℕ) where
  ids : Fin numWarehouses → Fin kDistPerWare → BenchXIds
  maxOId : ℤ := kOrdPerDist
  step : ℤ

namespace BenchXIdGenerator

variable {numWarehouses : ℕ}

def init (i step : ℤ) : BenchXIdGenerator numWarehouses where
  ids _ _ := .init i
  step := step

def modify (g : BenchXIdGenerator numWarehouses) (w : Fin numWarehouses) (d : Fin kDistPerWare)
    (f : BenchXIds → BenchXIds) : BenchXIdGenerator numWarehouses :=
  { g with ids := update g.ids w (update (g.ids w) d (f (g.ids w d))) }

def nextOId (g : BenchXIdGenerator numWarehouses) (w : Fin numWarehouses) (d : Fin kDistPerWare) :
    ℤ × BenchXIdGenerator numWarehouses :=
  let oId := (g.ids w d).oId
  (oId, { g.modify w d fun ids => { ids with oId := ids.oId + g.step } with maxOId := max g.maxOId oId })

def nextHId (g : BenchXIdGenerator numWarehouses) (w : Fin numWarehouses) (d : Fin kDistPerWare) :
    ℤ × BenchXIdGenerator numWarehouses :=
  ((g.ids w d).hId, g.modify w d fun ids => { ids with hId := ids.hId + g.step })

end BenchXIdGenerator

/-! ## Generated transactions -/

inductive HomeType where
  | lsh
  | fsh
  | mh
  deriving DecidableEq, Repr

/-- The random choices for one row: the district of the id is drawn before the district of the row. -/
structure InsertDraw where
  cId : ℤ
  hDId : Fin kDistPerWare
  amount : ℤ
  cDId : Fin kDistPerWare
  coin : Bool
  dId : Fin kDistPerWare
  deriving DecidableEq, Repr

/-- What is random in an `insert_only` transaction. -/
structure InsertOnlyDraw (numWarehouses : ℕ) where
  wId : Fin numWarehouses
  remoteWId : Fin numWarehouses
  homeType : HomeType
  datetime : ℤ
  dependent : Bool
  rows : List InsertDraw
  deriving DecidableEq, Repr

structure BenchXWorkload (numWarehouses : ℕ) where
  idGenerator : BenchXIdGenerator numWarehouses
  clientTxnIdCounter : ℕ := 0
  /-- A missing entry is created empty. -/
  pendingIoStates : ℕ → List InsertRow := fun _ => []

namespace BenchXWorkload

variable {numWarehouses : ℕ}

/-- The slot of a generator is its number, starting from 1, and the number of generators. -/
def init (slot : ℤ × ℤ) : BenchXWorkload numWarehouses where
  idGenerator := .init slot.1 slot.2

/-- The number of a warehouse or of a district. -/
def number {n : ℕ} (i : Fin n) : ℤ := (i.val : ℤ) + 1

def customerWarehouse (a : InsertOnlyDraw numWarehouses) (i : ℕ) (draw : InsertDraw) : Fin numWarehouses :=
  match a.homeType with
  | .lsh => a.wId
  | .fsh => a.remoteWId
  | .mh =>
    if 1 < a.rows.length then
      if i = 0 then a.remoteWId
      else if i = 1 then a.wId
      else if draw.coin then a.remoteWId else a.wId
    else a.remoteWId

/-- One iteration of the loop. -/
def insertRow (a : InsertOnlyDraw numWarehouses) (g : BenchXIdGenerator numWarehouses)
    (e : InsertDraw × ℕ) : InsertRow × BenchXIdGenerator numWarehouses :=
  let (hId, g) := g.nextHId a.wId e.1.hDId
  ({ wId := number a.wId
     dId := number e.1.dId
     cWId := number (customerWarehouse a e.2 e.1)
     cDId := number e.1.cDId
     cId := e.1.cId
     amount := e.1.amount
     datetime := a.datetime + e.2
     hId := hId }, g)

def insertRows (a : InsertOnlyDraw numWarehouses) (g : BenchXIdGenerator numWarehouses) :
    List (InsertDraw × ℕ) → List InsertRow × BenchXIdGenerator numWarehouses
  | [] => ([], g)
  | e :: es =>
    let (row, g) := insertRow a g e
    let (rows, g) := insertRows a g es
    (row :: rows, g)

/-- The transactions that a generator is asked for.  The second phase of a dependent transaction gets
the customers from the answer to the first phase. -/
inductive Event (numWarehouses : ℕ) where
  | newOrder (w : Fin numWarehouses) (d : Fin kDistPerWare)
  | insertOnly (a : InsertOnlyDraw numWarehouses)
  | insertOnlySecond (parent : ℕ) (cIds : ℕ → ℤ)
  | other

/-- The next state and the rows that the generated transaction inserts into the history. -/
def next (s : BenchXWorkload numWarehouses) : Event numWarehouses →
    BenchXWorkload numWarehouses × List InsertRow
  | .newOrder w d =>
    ({ s with
      idGenerator := (s.idGenerator.nextOId w d).2
      clientTxnIdCounter := s.clientTxnIdCounter + 1 }, [])
  | .insertOnly a =>
    let (rows, g) := insertRows a s.idGenerator a.rows.zipIdx
    if a.dependent then
      ({ s with
        idGenerator := g
        clientTxnIdCounter := s.clientTxnIdCounter + 1
        pendingIoStates := update s.pendingIoStates s.clientTxnIdCounter rows }, [])
    else
      ({ s with idGenerator := g, clientTxnIdCounter := s.clientTxnIdCounter + 1 }, rows)
  | .insertOnlySecond parent cIds =>
    ({ s with
      clientTxnIdCounter := s.clientTxnIdCounter + 1
      pendingIoStates := update s.pendingIoStates parent [] },
      (s.pendingIoStates parent).zipIdx.map fun e => { e.1 with cId := cIds e.2 })
  | .other => ({ s with clientTxnIdCounter := s.clientTxnIdCounter + 1 }, [])

/-- The state and all rows after the events. -/
def generate (s : BenchXWorkload numWarehouses) :
    List (Event numWarehouses) → BenchXWorkload numWarehouses × List InsertRow
  | [] => (s, [])
  | e :: es =>
    let (s, rows) := s.next e
    let (s, rows') := generate s es
    (s, rows ++ rows')

end BenchXWorkload

/-- The primary key of the row that `InsertTxn::Write` inserts. -/
def InsertRow.historyPkey (row : InsertRow) : List Scalar :=
  [makeInt32Scalar row.wId, makeInt8Scalar row.dId, makeInt32Scalar row.cId, makeInt32Scalar row.hId]

/-- The primary keys of the rows that `LoadCustomer` inserts, one for each customer. -/
def loadedHistoryPkey (wId dId cId : ℤ) : List Scalar :=
  [makeInt32Scalar wId, makeInt8Scalar dId, makeInt32Scalar cId, makeInt32Scalar 1]

/-- The part of the primary key that the generators take care of. -/
def InsertRow.slot (row : InsertRow) : ℤ × ℤ × ℤ := (row.wId, row.dId, row.hId)

namespace BenchXWorkload

variable {numWarehouses : ℕ} {i step : ℤ} {g g' : BenchXIdGenerator numWarehouses}
  {rows rows' : List InsertRow}

/-! ## Rows of one generator -/

/-- The next id of a history row for every district is one of `i + 1, i + 1 + step, …`. -/
structure Steps (i step : ℤ) (g : BenchXIdGenerator numWarehouses) : Prop where
  step_eq : g.step = step
  hId : ∀ w d, ∃ k : ℕ, (g.ids w d).hId = i + 1 + step * k

theorem steps_init : Steps i step (.init i step : BenchXIdGenerator numWarehouses) :=
  ⟨rfl, fun _ _ => ⟨0, by simp [BenchXIdGenerator.init, BenchXIds.init]⟩⟩

theorem Steps.init_le (h : Steps i step g) (hstep : 0 < step) (w : Fin numWarehouses)
    (d : Fin kDistPerWare) :
    ((BenchXIdGenerator.init i step : BenchXIdGenerator numWarehouses).ids w d).hId ≤ (g.ids w d).hId := by
  obtain ⟨k, hk⟩ := h.hId w d
  rw [hk]
  exact le_add_of_nonneg_right (mul_nonneg hstep.le k.cast_nonneg)

/-- The slot has an id that was drawn for its district between `g` and `g'`. -/
def Drawn (i step : ℤ) (g g' : BenchXIdGenerator numWarehouses) (slot : ℤ × ℤ × ℤ) : Prop :=
  ∃ w d, slot.1 = number w ∧ slot.2.1 = number d ∧ (g.ids w d).hId ≤ slot.2.2 ∧
    slot.2.2 < (g'.ids w d).hId ∧ ∃ k : ℕ, slot.2.2 = i + 1 + step * k

/-- The slots have ids that were drawn for their districts between `g` and `g'`, each once. -/
structure Fresh (i step : ℤ) (g g' : BenchXIdGenerator numWarehouses) (slots : List (ℤ × ℤ × ℤ)) :
    Prop where
  steps : Steps i step g'
  mono : ∀ w d, (g.ids w d).hId ≤ (g'.ids w d).hId
  drawn : ∀ slot ∈ slots, Drawn i step g g' slot
  nodup : slots.Nodup

theorem number_injective {n : ℕ} : Injective (number : Fin n → ℤ) := by
  intro i j h
  rw [number, number] at h
  exact Fin.ext (by omega)

theorem ids_modify (w w' : Fin numWarehouses) (d d' : Fin kDistPerWare) (f : BenchXIds → BenchXIds) :
    (g.modify w d f).ids w' d' = if w' = w ∧ d' = d then f (g.ids w d) else g.ids w' d' := by
  change update g.ids w (update (g.ids w) d (f (g.ids w d))) w' d' = _
  rcases eq_or_ne w' w with rfl | hw
  · rw [update_self, update_apply]
    simp
  · rw [update_of_ne hw, if_neg fun h => hw h.1]

variable {g₁ g₂ : BenchXIdGenerator numWarehouses} {slot : ℤ × ℤ × ℤ}
  {s : BenchXWorkload numWarehouses} {inserted : List InsertRow}

/-- Slots drawn later differ from slots drawn before. -/
theorem Drawn.ne {slot' : ℤ × ℤ × ℤ} (h : Drawn i step g₁ g slot) (h' : Drawn i step g g₂ slot') :
    slot ≠ slot' := by
  obtain ⟨w, d, hw, hd, -, hlt, -⟩ := h
  obtain ⟨w', d', hw', hd', hle, -, -⟩ := h'
  rintro rfl
  obtain rfl := number_injective (hw.symm.trans hw')
  obtain rfl := number_injective (hd.symm.trans hd')
  omega

theorem Drawn.mono (h : Drawn i step g g' slot) (hle : ∀ w d, (g₁.ids w d).hId ≤ (g.ids w d).hId)
    (hle' : ∀ w d, (g'.ids w d).hId ≤ (g₂.ids w d).hId) : Drawn i step g₁ g₂ slot := by
  obtain ⟨w, d, hw, hd, hlow, hlt, hk⟩ := h
  exact ⟨w, d, hw, hd, (hle w d).trans hlow, hlt.trans_le (hle' w d), hk⟩

theorem Fresh.append {g'' : BenchXIdGenerator numWarehouses} {slots slots' : List (ℤ × ℤ × ℤ)}
    (h : Fresh i step g g' slots) (h' : Fresh i step g' g'' slots') :
    Fresh i step g g'' (slots ++ slots') where
  steps := h'.steps
  mono w d := (h.mono w d).trans (h'.mono w d)
  drawn slot hslot := by
    rcases mem_append.mp hslot with hslot | hslot
    · exact (h.drawn slot hslot).mono (fun _ _ => le_rfl) h'.mono
    · exact (h'.drawn slot hslot).mono h.mono fun _ _ => le_rfl
  nodup := nodup_append'.mpr ⟨h.nodup, h'.nodup, fun slot hslot hslot' =>
    (h.drawn slot hslot).ne (h'.drawn slot hslot') rfl⟩

theorem fresh_nil (h : Steps i step g) : Fresh i step g g [] where
  steps := h
  mono _ _ := le_rfl
  drawn _ hslot := nomatch hslot
  nodup := nodup_nil

variable {a : InsertOnlyDraw numWarehouses}

/-- A row whose district is the one that its id was drawn for. -/
theorem fresh_insertRow (hstep : 0 < step) (h : Steps i step g) {e : InsertDraw × ℕ}
    (haligned : e.1.dId = e.1.hDId) :
    Fresh i step g (insertRow a g e).2 [(insertRow a g e).1.slot] := by
  have hids : ∀ w d, (((insertRow a g e).2.ids w d).hId) =
      if w = a.wId ∧ d = e.1.hDId then (g.ids w d).hId + step else (g.ids w d).hId := by
    intro w d
    rw [insertRow, BenchXIdGenerator.nextHId, ids_modify, h.step_eq]
    split_ifs with hand
    · rw [hand.1, hand.2]
    · rfl
  obtain ⟨k, hk⟩ := h.hId a.wId e.1.hDId
  refine ⟨⟨h.step_eq, fun w d => ?_⟩, fun w d => ?_, ?_, nodup_singleton _⟩
  · rw [hids]
    split_ifs with hand
    · exact ⟨k + 1, by rw [hand.1, hand.2, hk]; push_cast; ring⟩
    · exact h.hId w d
  · rw [hids]
    split_ifs <;> omega
  · intro slot hslot
    obtain rfl := mem_singleton.mp hslot
    refine ⟨a.wId, e.1.hDId, rfl, congrArg number haligned, le_rfl, ?_, k, hk⟩
    rw [hids, if_pos ⟨rfl, rfl⟩]
    exact lt_add_of_pos_right _ hstep

theorem fresh_insertRows (hstep : 0 < step) (h : Steps i step g) {es : List (InsertDraw × ℕ)}
    (haligned : ∀ e ∈ es, e.1.dId = e.1.hDId) :
    Fresh i step g (insertRows a g es).2 ((insertRows a g es).1.map InsertRow.slot) := by
  induction es generalizing g with
  | nil => exact fresh_nil h
  | cons e es ih =>
    have hrow := fresh_insertRow (a := a) hstep h (haligned e mem_cons_self)
    exact hrow.append (ih hrow.steps fun e he => haligned e (mem_cons_of_mem _ he))

/-! ## All rows of a generator -/

/-- The slots of the rows that are inserted, and of the rows of the dependent transactions that wait
for their second phase. -/
def slotsOf (s : BenchXWorkload numWarehouses) (inserted : List InsertRow) :
    Option ℕ → List (ℤ × ℤ × ℤ)
  | none => inserted.map InsertRow.slot
  | some parent => (s.pendingIoStates parent).map InsertRow.slot

/-- No slot is used twice. -/
structure Ledger (i step : ℤ) (g : BenchXIdGenerator numWarehouses)
    (slots : Option ℕ → List (ℤ × ℤ × ℤ)) : Prop where
  steps : Steps i step g
  drawn : ∀ o, ∀ slot ∈ slots o, Drawn i step (.init i step) g slot
  nodup : ∀ o, (slots o).Nodup
  disjoint : ∀ o o', o ≠ o' → (slots o).Disjoint (slots o')

variable {slots : Option ℕ → List (ℤ × ℤ × ℤ)}

theorem Ledger.add (hstep : 0 < step) (h : Ledger i step g slots) {new : List (ℤ × ℤ × ℤ)} (hnew : Fresh i step g g' new)
    (o₀ : Option ℕ) : Ledger i step g' (update slots o₀ (slots o₀ ++ new)) := by
  have hmem : ∀ o, ∀ slot ∈ update slots o₀ (slots o₀ ++ new) o,
      slot ∈ slots o ∨ o = o₀ ∧ slot ∈ new := by
    intro o slot hslot
    rcases eq_or_ne o o₀ with rfl | hne
    · rw [update_self] at hslot
      exact (mem_append.mp hslot).imp_right fun hslot => ⟨rfl, hslot⟩
    · rw [update_of_ne hne] at hslot
      exact Or.inl hslot
  refine ⟨hnew.steps, fun o slot hslot => ?_, fun o => ?_, fun o o' hne slot hslot hslot' => ?_⟩
  · rcases hmem o slot hslot with hslot | ⟨-, hslot⟩
    · exact (h.drawn o slot hslot).mono (fun _ _ => le_rfl) hnew.mono
    · exact (hnew.drawn slot hslot).mono (h.steps.init_le hstep) fun _ _ => le_rfl
  · rcases eq_or_ne o o₀ with rfl | hne
    · rw [update_self]
      exact nodup_append'.mpr ⟨h.nodup o, hnew.nodup, fun slot hslot hslot' =>
        (h.drawn o slot hslot).ne (hnew.drawn slot hslot') rfl⟩
    · rw [update_of_ne hne]
      exact h.nodup o
  · rcases hmem o slot hslot with hold | ⟨rfl, hnew₁⟩ <;>
      rcases hmem o' slot hslot' with hold' | ⟨rfl, hnew₂⟩
    · exact h.disjoint o o' hne hold hold'
    · exact (h.drawn o slot hold).ne (hnew.drawn slot hnew₂) rfl
    · exact (h.drawn o' slot hold').ne (hnew.drawn slot hnew₁) rfl
    · exact hne rfl

/-- The rows of a dependent transaction are inserted. -/
theorem Ledger.move (h : Ledger i step g slots) (parent : ℕ) :
    Ledger i step g (update (update slots none (slots none ++ slots (some parent)))
      (some parent) []) := by
  have hmem : ∀ o, ∀ slot ∈ update
      (update slots none (slots none ++ slots (some parent))) (some parent) [] o,
      o ≠ some parent ∧ (slot ∈ slots o ∨ o = none ∧ slot ∈ slots (some parent)) := by
    intro o slot hslot
    rcases eq_or_ne o (some parent) with rfl | hparent
    · rw [update_self] at hslot
      cases hslot
    · rw [update_of_ne hparent] at hslot
      refine ⟨hparent, ?_⟩
      rcases eq_or_ne o none with rfl | hne
      · rw [update_self] at hslot
        exact (mem_append.mp hslot).imp_right fun hslot => ⟨rfl, hslot⟩
      · rw [update_of_ne hne] at hslot
        exact Or.inl hslot
  refine ⟨h.steps, fun o slot hslot => ?_, fun o => ?_, fun o o' hne slot hslot hslot' => ?_⟩
  · rcases (hmem o slot hslot).2 with hslot | ⟨-, hslot⟩
    · exact h.drawn o slot hslot
    · exact h.drawn _ slot hslot
  · rcases eq_or_ne o (some parent) with rfl | hparent
    · rw [update_self]
      exact nodup_nil
    · rw [update_of_ne hparent]
      rcases eq_or_ne o none with rfl | hne
      · rw [update_self]
        exact nodup_append'.mpr ⟨h.nodup _, h.nodup _, h.disjoint _ _ (by simp)⟩
      · rw [update_of_ne hne]
        exact h.nodup o
  · obtain ⟨hparent, hcase⟩ := hmem o slot hslot
    obtain ⟨hparent', hcase'⟩ := hmem o' slot hslot'
    rcases hcase with hold | ⟨rfl, hmoved⟩ <;> rcases hcase' with hold' | ⟨rfl, hmoved'⟩
    · exact h.disjoint o o' hne hold hold'
    · exact h.disjoint _ _ hparent hold hmoved'
    · exact h.disjoint _ _ hparent' hold' hmoved
    · exact hne rfl

/-- The ids of the rows are drawn for the districts of the rows. -/
def Event.Aligned : Event numWarehouses → Prop
  | .insertOnly a => ∀ draw ∈ a.rows, draw.dId = draw.hDId
  | _ => True

structure Inv (i step : ℤ) (s : BenchXWorkload numWarehouses) (inserted : List InsertRow) : Prop where
  ledger : Ledger i step s.idGenerator (slotsOf s inserted)
  unused : ∀ parent ≥ s.clientTxnIdCounter, s.pendingIoStates parent = []

theorem slotsOf_init (slot : ℤ × ℤ) :
    slotsOf (.init slot : BenchXWorkload numWarehouses) [] = fun _ => [] := by
  funext o
  cases o <;> rfl

theorem inv_init : Inv i step (.init (i, step) : BenchXWorkload numWarehouses) [] where
  ledger := by
    rw [slotsOf_init]
    exact ⟨steps_init, fun _ _ h => (nomatch h), fun _ => nodup_nil, fun _ _ _ _ h => nomatch h⟩
  unused _ _ := rfl

theorem hId_nextOId (w w' : Fin numWarehouses) (d d' : Fin kDistPerWare) :
    ((g.nextOId w d).2.ids w' d').hId = (g.ids w' d').hId := by
  change ((g.modify w d fun ids => { ids with oId := ids.oId + g.step }).ids w' d').hId = _
  rw [ids_modify]
  split_ifs with hand
  · rw [hand.1, hand.2]
  · rfl

/-- Taking an order id draws no history ids. -/
theorem fresh_nextOId (h : Steps i step g) (w : Fin numWarehouses) (d : Fin kDistPerWare) :
    Fresh i step g (g.nextOId w d).2 [] where
  steps := ⟨h.step_eq, fun w' d' => hId_nextOId (g := g) w w' d d' ▸ h.hId w' d'⟩
  mono w' d' := (hId_nextOId w w' d d').ge
  drawn _ hslot := nomatch hslot
  nodup := nodup_nil

theorem slotsOf_insert (s : BenchXWorkload numWarehouses) (inserted rows : List InsertRow) :
    slotsOf s (inserted ++ rows) = update (slotsOf s inserted) none
      (slotsOf s inserted none ++ rows.map InsertRow.slot) := by
  funext o
  cases o with
  | none => rw [update_self, slotsOf, slotsOf, map_append]
  | some parent => rw [update_of_ne (by simp), slotsOf, slotsOf]

theorem slotsOf_pending (s : BenchXWorkload numWarehouses) (inserted rows : List InsertRow)
    (parent : ℕ) :
    slotsOf { s with pendingIoStates := update s.pendingIoStates parent rows } inserted =
      update (slotsOf s inserted) (some parent) (rows.map InsertRow.slot) := by
  funext o
  cases o with
  | none => rw [update_of_ne (by simp)]; rfl
  | some parent' =>
    rcases eq_or_ne parent' parent with rfl | hne
    · rw [update_self]
      exact congrArg (List.map InsertRow.slot) (update_self _ _ _)
    · rw [update_of_ne (by simpa using hne)]
      exact congrArg (List.map InsertRow.slot) (update_of_ne hne _ _)

theorem Inv.next (hstep : 0 < step) (h : Inv i step s inserted) {e : Event numWarehouses}
    (haligned : e.Aligned) : Inv i step (s.next e).1 (inserted ++ (s.next e).2) := by
  have hunused : ∀ parent ≥ s.clientTxnIdCounter + 1, s.pendingIoStates parent = [] :=
    fun parent hparent => h.unused parent (Nat.le_of_succ_le hparent)
  cases e with
  | newOrder w d =>
    have hadd := h.ledger.add hstep (fresh_nextOId h.ledger.steps w d) none
    rw [append_nil, update_eq_self] at hadd
    rw [BenchXWorkload.next, append_nil]
    exact ⟨hadd, hunused⟩
  | insertOnly a =>
    have hdistricts : ∀ e ∈ a.rows.zipIdx, e.1.dId = e.1.hDId := fun e he =>
      haligned e.1 (fst_mem_of_mem_zipIdx he)
    have hfresh := fresh_insertRows (a := a) hstep h.ledger.steps hdistricts
    simp only [BenchXWorkload.next]
    split_ifs
    · have hadd := h.ledger.add hstep hfresh (some s.clientTxnIdCounter)
      rw [slotsOf, h.unused _ le_rfl, map_nil, nil_append] at hadd
      refine ⟨?_, fun parent hparent => ?_⟩
      · rw [append_nil]
        exact (slotsOf_pending s inserted _ _).symm ▸ hadd
      · have hne : parent ≠ s.clientTxnIdCounter := by
          have : s.clientTxnIdCounter + 1 ≤ parent := hparent
          omega
        exact (update_of_ne hne _ _).trans (hunused parent hparent)
    · refine ⟨?_, hunused⟩
      exact (slotsOf_insert s inserted _).symm ▸ h.ledger.add hstep hfresh none
  | insertOnlySecond parent cIds =>
    have hslots : ((s.pendingIoStates parent).zipIdx.map fun e =>
        { e.1 with cId := cIds e.2 }).map InsertRow.slot = slotsOf s inserted (some parent) := by
      rw [slotsOf, map_map]
      conv_rhs => rw [← zipIdx_map_fst 0 (s.pendingIoStates parent), map_map]
      rfl
    refine ⟨?_, fun parent' hparent => ?_⟩
    · have hmove := h.ledger.move parent
      rw [← hslots, ← slotsOf_insert] at hmove
      exact (slotsOf_pending s _ [] parent).symm ▸ hmove
    · rcases eq_or_ne parent' parent with rfl | hne
      · exact update_self _ _ _
      · exact (update_of_ne hne _ _).trans (hunused parent' hparent)
  | other =>
    rw [BenchXWorkload.next, append_nil]
    exact ⟨h.ledger, hunused⟩

theorem Inv.generate (hstep : 0 < step) (h : Inv i step s inserted) {es : List (Event numWarehouses)}
    (haligned : ∀ e ∈ es, e.Aligned) :
    Inv i step (s.generate es).1 (inserted ++ (s.generate es).2) := by
  induction es generalizing s inserted with
  | nil => rwa [BenchXWorkload.generate, append_nil]
  | cons e es ih =>
    have hnext := h.next hstep (haligned e mem_cons_self)
    rw [BenchXWorkload.generate, ← append_assoc]
    exact ih hnext fun e he => haligned e (mem_cons_of_mem _ he)

end BenchXWorkload

/-! ## All generators -/

namespace BenchXWorkload

variable {numWarehouses G : ℕ}

/-- The rows that all generators insert, one generator after the other. -/
def allRows (runs : Fin G → List (Event numWarehouses)) : List InsertRow :=
  (List.finRange G).flatMap fun j => ((init (number j, G)).generate (runs j)).2

/-- The counters of a generator, which are of type `int`, have not overflowed. -/
def InRange (s : BenchXWorkload numWarehouses) : Prop := ∀ w d, (s.idGenerator.ids w d).hId < 2 ^ 31

instance (s : BenchXWorkload numWarehouses) : Decidable s.InRange :=
  inferInstanceAs (Decidable (∀ w d, _))

theorem ofInt_inj {w : ℕ} {x y : ℤ} (hw : 0 < w) (hx : 0 ≤ x ∧ x < 2 ^ (w - 1))
    (hy : 0 ≤ y ∧ y < 2 ^ (w - 1)) (h : BitVec.ofInt w x = BitVec.ofInt w y) : x = y := by
  have hneg : -2 ^ (w - 1) ≤ (0 : ℤ) := by simp
  rw [← BitVec.toInt_ofInt_eq_self hw (hneg.trans hx.1) hx.2, h,
    BitVec.toInt_ofInt_eq_self hw (hneg.trans hy.1) hy.2]

/-- What is known of the numbers of a row. -/
structure RowInRange (row : InsertRow) : Prop where
  wId : 0 ≤ row.wId ∧ row.wId < 2 ^ 31
  dId : 0 ≤ row.dId ∧ row.dId < 2 ^ 7
  hId : 1 < row.hId ∧ row.hId < 2 ^ 31

variable {row : InsertRow}

theorem slot_of_historyPkey {row' : InsertRow} (h : RowInRange row) (h' : RowInRange row')
    (heq : row.historyPkey = row'.historyPkey) : row.slot = row'.slot := by
  simp only [InsertRow.historyPkey, makeInt32Scalar, makeInt8Scalar, List.cons.injEq,
    Scalar.int32.injEq, Scalar.int8.injEq] at heq
  obtain ⟨hw, hd, -, hh, -⟩ := heq
  have hw := ofInt_inj (by norm_num) h.wId h'.wId hw
  have hd := ofInt_inj (by norm_num) h.dId h'.dId hd
  have hh := ofInt_inj (by norm_num) ⟨by have := h.hId.1; omega, h.hId.2⟩
    ⟨by have := h'.hId.1; omega, h'.hId.2⟩ hh
  rw [InsertRow.slot, InsertRow.slot, hw, hd, hh]

theorem ne_loadedHistoryPkey (h : RowInRange row) (w d c : ℤ) :
    row.historyPkey ≠ loadedHistoryPkey w d c := by
  intro heq
  simp only [InsertRow.historyPkey, loadedHistoryPkey, makeInt32Scalar, makeInt8Scalar,
    List.cons.injEq, Scalar.int32.injEq] at heq
  have hh := ofInt_inj (by norm_num) ⟨by have := h.hId.1; omega, h.hId.2⟩ (by norm_num) heq.2.2.2.1
  have := h.hId.1
  omega

theorem Drawn.rowInRange {i step : ℤ} {g g' : BenchXIdGenerator numWarehouses}
    (h : Drawn i step g g' row.slot) (hn : numWarehouses < 2 ^ 31) (hi : 1 ≤ i) (hstep : 0 < step)
    (hrange : ∀ w d, (g'.ids w d).hId < 2 ^ 31) : RowInRange row := by
  obtain ⟨w, d, hw, hd, -, hlt, k, hk⟩ := h
  have hmul : 0 ≤ step * k := mul_nonneg hstep.le k.cast_nonneg
  have hwlt := w.isLt
  have hdlt : d.val < 10 := d.isLt
  refine ⟨?_, ?_, ?_, hlt.trans (hrange w d)⟩
  · rw [show row.wId = number w from hw, number]
    omega
  · rw [show row.dId = number d from hd, number]
    omega
  · rw [show row.hId = _ from hk]
    omega

/-- Generators draw ids with different remainders. -/
theorem slot_ne_of_ne {j j' : Fin G} (hne : j ≠ j') {g₁ g₂ g₁' g₂' : BenchXIdGenerator numWarehouses}
    {slot : ℤ × ℤ × ℤ} (h : Drawn (number j) G g₁ g₂ slot) : ¬ Drawn (number j') G g₁' g₂' slot := by
  rintro ⟨-, -, -, -, -, -, k', hk'⟩
  obtain ⟨-, -, -, -, -, -, k, hk⟩ := h
  have hmod : ((j.val + k * G : ℕ) : ℤ) = ((j'.val + k' * G : ℕ) : ℤ) := by
    rw [number] at hk hk'
    push_cast
    linarith
  have hmod := congrArg (· % G) (Int.natCast_inj.mp hmod)
  simp only [Nat.add_mul_mod_self_right, Nat.mod_eq_of_lt j.isLt, Nat.mod_eq_of_lt j'.isLt] at hmod
  exact hne (Fin.ext hmod)

/-- Two rows for the same customer, with the districts of the ids and the districts of the rows. -/
def twoRows (hDIds dIds : Fin kDistPerWare × Fin kDistPerWare) : Event 1 :=
  .insertOnly {
    wId := 0
    remoteWId := 0
    homeType := .lsh
    datetime := 0
    dependent := false
    rows := [⟨7, hDIds.1, 100, 0, false, dIds.1⟩, ⟨7, hDIds.2, 100, 0, false, dIds.2⟩] }

end BenchXWorkload

end Slog.Benchx
