/-
# Programs over a key-value interface

A program that reads and writes records by their keys, one call after the other, where each call may
depend on the answers to the earlier ones.  An adapter answers the calls with a state of its own; it
may also stop the program.  The same program can be run with one adapter after the other, to execute
it or to find out which keys it accesses.
-/
import Penteract.Lib.Run

namespace KeyValue

open List Option

inductive Call (κ ν : Type) where
  | read (key : κ)
  | insert (key : κ) (value : ν)
  | update (key : κ) (f : ν → Option ν)
  | delete (key : κ)

def Call.key {κ ν : Type} : Call κ ν → κ
  | .read key => key
  | .insert key _ => key
  | .update key _ => key
  | .delete key => key

/-- A read is answered with the record, the other calls with whether they have succeeded. -/
abbrev Call.Answer {κ ν : Type} : Call κ ν → Type
  | .read _ => Option ν
  | _ => Bool

def Call.ok {κ ν : Type} : (c : Call κ ν) → c.Answer → Bool
  | .read _, v => v.isSome
  | .insert _ _, ok => ok
  | .update _ _, ok => ok
  | .delete _, ok => ok

/-- The answer if no record is there and nothing can be written. -/
def Call.blank {κ ν : Type} : (c : Call κ ν) → c.Answer
  | .read _ => none
  | .insert _ _ => false
  | .update _ _ => false
  | .delete _ => false

inductive Access (κ : Type) where
  | read (key : κ)
  | write (key : κ)
  deriving DecidableEq, Repr

def Access.key {κ : Type} : Access κ → κ
  | .read key => key
  | .write key => key

def Call.access {κ ν : Type} : Call κ ν → Access κ
  | .read key => .read key
  | .insert key _ => .write key
  | .update key _ => .write key
  | .delete key => .write key

/-- The answers to the calls, with the next state; `none` stops the program. -/
structure Adapter (κ ν σ : Type) where
  answer : σ → (c : Call κ ν) → Option (c.Answer × σ)

def Adapter.next {κ ν σ : Type} (adapter : Adapter κ ν σ) (s : σ) (c : Call κ ν) : Option σ :=
  (adapter.answer s c).map Prod.snd

/-- `fault` is a failed check, an exception or a read outside of an object. -/
inductive Program (κ ν α : Type) : Type where
  | pure (a : α)
  | fault
  | call (c : Call κ ν) (next : c.Answer → Program κ ν α)

namespace Program

variable {κ ν σ α β : Type}

/-! ## Sequencing -/

protected def bind : Program κ ν α → (α → Program κ ν β) → Program κ ν β
  | .pure a, f => f a
  | .fault, _ => .fault
  | .call c next, f => .call c fun answer => (next answer).bind f

instance : Monad (Program κ ν) where
  pure := .pure
  bind := Program.bind

theorem bind_pure_self (p : Program κ ν α) : p.bind .pure = p := by
  induction p with
  | pure a => rfl
  | fault => rfl
  | call c next ih => exact congrArg _ (funext ih)

theorem bind_bind {γ : Type} (p : Program κ ν α) (f : α → Program κ ν β) (g : β → Program κ ν γ) :
    (p.bind f).bind g = p.bind fun a => (f a).bind g := by
  induction p with
  | pure a => rfl
  | fault => rfl
  | call c next ih => exact congrArg _ (funext ih)

instance : LawfulMonad (Program κ ν) :=
  LawfulMonad.mk' _ bind_pure_self (fun _ _ => rfl) bind_bind

/-- A value that a check or a conversion has to provide. -/
def ofOption : Option α → Program κ ν α
  | none => .fault
  | some a => .pure a

@[simp]
theorem ofOption_some (a : α) : (ofOption (some a) : Program κ ν α) = Pure.pure a := rfl

def read (key : κ) : Program κ ν (Option ν) := .call (.read key) .pure

def insert (key : κ) (value : ν) : Program κ ν Bool := .call (.insert key value) .pure

def update (key : κ) (f : ν → Option ν) : Program κ ν Bool := .call (.update key f) .pure

def delete (key : κ) : Program κ ν Bool := .call (.delete key) .pure

/-- Make the calls one after the other, whatever the answers are; the result is whether all of them
have succeeded. -/
def perform (calls : List (Call κ ν)) : Program κ ν Bool :=
  calls.foldlM (fun ok c => .call c fun answer => .pure (ok && c.ok answer)) true

/-! ## Running a program -/

/-- The result and the last state of the adapter; `none` if the program faults. -/
def run (adapter : Adapter κ ν σ) : Program κ ν α → σ → Option (α × σ)
  | .pure a, s => some (a, s)
  | .fault, _ => none
  | .call c next, s => (adapter.answer s c).bind fun r => (next r.1).run adapter r.2

variable {adapter : Adapter κ ν σ}

@[simp]
theorem run_pure (a : α) (s : σ) : (Pure.pure a : Program κ ν α).run adapter s = some (a, s) := rfl

@[simp]
theorem run_ofOption (a : Option α) (s : σ) :
    (ofOption a : Program κ ν α).run adapter s = a.map fun a => (a, s) := by
  cases a <;> rfl

theorem run_call (c : Call κ ν) (s : σ) :
    (Program.call c .pure).run adapter s = adapter.answer s c := by
  simp only [run]
  cases adapter.answer s c <;> rfl

@[simp]
theorem run_read (key : κ) (s : σ) :
    (read key : Program κ ν _).run adapter s = adapter.answer s (.read key) := run_call _ s

@[simp]
theorem run_insert (key : κ) (value : ν) (s : σ) :
    (insert key value).run adapter s = adapter.answer s (.insert key value) := run_call _ s

@[simp]
theorem run_update (key : κ) (f : ν → Option ν) (s : σ) :
    (update key f).run adapter s = adapter.answer s (.update key f) := run_call _ s

@[simp]
theorem run_delete (key : κ) (s : σ) :
    (delete key : Program κ ν _).run adapter s = adapter.answer s (.delete key) := run_call _ s

@[simp]
theorem run_bind (p : Program κ ν α) (f : α → Program κ ν β) (s : σ) :
    (p >>= f).run adapter s = (p.run adapter s).bind fun r => (f r.1).run adapter r.2 := by
  change (p.bind f).run adapter s = _
  induction p generalizing s with
  | pure a => rfl
  | fault => rfl
  | call c next ih => simp [Program.bind, run, ih, bind_assoc]

variable {p : Program κ ν α} {f : α → Program κ ν β} {s : σ} {access : Access κ} {l : List α}
  {a : α} {b : β}

theorem exists_run_of_bind (h : ((p >>= f).run adapter s).isSome) :
    ∃ r, p.run adapter s = some r ∧ ((f r.1).run adapter r.2).isSome := by
  rw [run_bind] at h
  cases hp : p.run adapter s with
  | none => simp [hp] at h
  | some r => exact ⟨r, rfl, by simpa [hp] using h⟩

@[simp]
theorem run_map (f : α → β) (p : Program κ ν α) (s : σ) :
    (f <$> p).run adapter s = (p.run adapter s).map fun r => (f r.1, r.2) := by
  rw [← bind_pure_comp, run_bind]
  cases p.run adapter s <;> rfl

theorem run_foldlM_call (calls : List (Call κ ν)) (ok : Bool) (s : σ) :
    (calls.foldlM (fun ok c => .call c fun answer => .pure (ok && c.ok answer)) ok :
      Program κ ν Bool).run adapter s =
        ((perform calls).run adapter s).map fun r => (ok && r.1, r.2) := by
  rw [perform]
  induction calls generalizing ok s with
  | nil => simp
  | cons c calls ih =>
    rw [foldlM_cons, foldlM_cons, run_bind, run_bind]
    simp only [run]
    cases adapter.answer s c with
    | none => rfl
    | some r =>
      simp only [Option.bind_some]
      rw [ih, ih (true && _), Option.map_map]
      congr 1
      funext x
      simp [Bool.and_assoc]

@[simp]
theorem run_perform_nil (s : σ) :
    (perform [] : Program κ ν Bool).run adapter s = some (true, s) := rfl

theorem run_perform_cons (c : Call κ ν) (calls : List (Call κ ν)) (s : σ) :
    (perform (c :: calls)).run adapter s =
      (adapter.answer s c).bind fun r =>
        ((perform calls).run adapter r.2).map fun x => (c.ok r.1 && x.1, x.2) := by
  rw [perform, foldlM_cons, run_bind]
  simp only [run]
  cases adapter.answer s c with
  | none => rfl
  | some r => exact run_foldlM_call calls _ _

theorem run_perform_singleton (c : Call κ ν) (s : σ) :
    (perform [c]).run adapter s = (adapter.answer s c).map fun r => (c.ok r.1, r.2) := by
  rw [run_perform_cons]
  cases adapter.answer s c <;> simp

theorem run_perform (calls : List (Call κ ν)) (s : σ) :
    ((perform calls).run adapter s).map Prod.snd = Lts.run adapter.next s calls := by
  induction calls generalizing s with
  | nil => rfl
  | cons c calls ih =>
    rw [run_perform_cons, Lts.run_cons, Adapter.next]
    cases adapter.answer s c with
    | none => rfl
    | some r =>
      rw [Option.bind_some, Option.map_some, Option.bind_some, ← ih, Option.map_map]
      rfl

/-! ## The keys that are accessed -/

/-- The accesses of a run, in their order; the last one may be that of a call that faults. -/
def trace (adapter : Adapter κ ν σ) : Program κ ν α → σ → List (Access κ)
  | .pure _, _ => []
  | .fault, _ => []
  | .call c next, s =>
    c.access :: ((adapter.answer s c).elim [] fun r => (next r.1).trace adapter r.2)

/-- The accesses that the program can make, whatever the answers are. -/
def accesses : Program κ ν α → Set (Access κ)
  | .pure _ => ∅
  | .fault => ∅
  | .call c next => {c.access} ∪ ⋃ answer, (next answer).accesses

theorem trace_bind (p : Program κ ν α) (f : α → Program κ ν β) (s : σ) :
    (p >>= f).trace adapter s =
      p.trace adapter s ++ ((p.run adapter s).elim [] fun r => (f r.1).trace adapter r.2) := by
  change (p.bind f).trace adapter s = _
  induction p generalizing s with
  | pure a => rfl
  | fault => rfl
  | call c next ih =>
    simp only [Program.bind, trace, run]
    cases adapter.answer s c with
    | none => rfl
    | some r => simp [ih]

theorem mem_accesses_of_mem_trace (h : access ∈ p.trace adapter s) : access ∈ p.accesses := by
  induction p generalizing s with
  | pure a => cases h
  | fault => cases h
  | call c next ih =>
    rcases mem_cons.mp h with rfl | h
    · exact Or.inl rfl
    · cases hanswer : adapter.answer s c with
      | none => simp [hanswer] at h
      | some r =>
        rw [hanswer] at h
        exact Or.inr (Set.mem_iUnion.mpr ⟨r.1, ih r.1 h⟩)

theorem mem_trace_bind :
    access ∈ (p >>= f).trace adapter s ↔ access ∈ p.trace adapter s ∨
      ∃ r, p.run adapter s = some r ∧ access ∈ (f r.1).trace adapter r.2 := by
  rw [trace_bind, mem_append]
  cases p.run adapter s <;> simp

/-! The programs of a loop that all leave the state `s` as it is. -/

theorem mem_trace_mapM {p : α → Program κ ν β}
    (hkeeps : ∀ a ∈ l, ∀ r, (p a).run adapter s = some r → r.2 = s)
    (h : access ∈ (l.mapM p).trace adapter s) : ∃ a ∈ l, access ∈ (p a).trace adapter s := by
  induction l with
  | nil => cases h
  | cons a l ih =>
    rw [mapM_cons, mem_trace_bind] at h
    rcases h with h | ⟨r, hr, h⟩
    · exact ⟨a, mem_cons_self, h⟩
    · rw [hkeeps a mem_cons_self r hr, mem_trace_bind] at h
      rcases h with h | ⟨_, _, h⟩
      · obtain ⟨a', ha', h⟩ := ih (fun a ha => hkeeps a (mem_cons_of_mem _ ha)) h
        exact ⟨a', mem_cons_of_mem _ ha', h⟩
      · cases h

theorem run_isSome_of_mapM {p : α → Program κ ν β}
    (hkeeps : ∀ a ∈ l, ∀ r, (p a).run adapter s = some r → r.2 = s)
    (hrun : ((l.mapM p).run adapter s).isSome) (ha : a ∈ l) :
    ((p a).run adapter s).isSome ∧
      ∀ access ∈ (p a).trace adapter s, access ∈ (l.mapM p).trace adapter s := by
  induction l with
  | nil => cases ha
  | cons b l ih =>
    rw [mapM_cons] at hrun ⊢
    cases hb : (p b).run adapter s with
    | none => simp [hb] at hrun
    | some r =>
      have hs := hkeeps b mem_cons_self r hb
      have hl : ((l.mapM p).run adapter s).isSome := by
        cases hl : (l.mapM p).run adapter s with
        | none => simp [hb, hs, hl] at hrun
        | some r => rfl
      rcases mem_cons.mp ha with rfl | ha
      · exact ⟨by rw [hb]; rfl, fun access h => mem_trace_bind.mpr (Or.inl h)⟩
      · obtain ⟨hsome, hmem⟩ := ih (fun a ha => hkeeps a (mem_cons_of_mem _ ha)) hl ha
        exact ⟨hsome, fun access h => mem_trace_bind.mpr (Or.inr ⟨r, hb,
          hs.symm ▸ mem_trace_bind.mpr (Or.inl (hmem access h))⟩)⟩

theorem forall₂_of_run_mapM {p : α → Program κ ν β}
    (hkeeps : ∀ a ∈ l, ∀ r, (p a).run adapter s = some r → r.2 = s) {bs : List β} {s' : σ}
    (hrun : (l.mapM p).run adapter s = some (bs, s')) :
    s' = s ∧ Forall₂ (fun a b => (p a).run adapter s = some (b, s)) l bs := by
  induction l generalizing bs s' with
  | nil =>
    cases hrun
    exact ⟨rfl, .nil⟩
  | cons a l ih =>
    simp only [mapM_cons, run_bind, bind_eq_some_iff] at hrun
    obtain ⟨⟨b, s₁⟩, hb, ⟨bs, s₂⟩, hbs, ⟨⟩⟩ := hrun
    obtain rfl : s₁ = s := hkeeps a mem_cons_self _ hb
    obtain ⟨rfl, hforall⟩ := ih (fun a ha => hkeeps a (mem_cons_of_mem _ ha)) hbs
    exact ⟨rfl, .cons hb hforall⟩

/-- The results that the program can have, whatever the answers are. -/
def results : Program κ ν α → Set α
  | .pure a => {a}
  | .fault => ∅
  | .call _ next => ⋃ answer, (next answer).results

/-- The program makes accesses from `as` only, and its results satisfy `post`. -/
structure Within (as : Set (Access κ)) (post : α → Prop) (p : Program κ ν α) : Prop where
  accesses : p.accesses ⊆ as
  results : ∀ a ∈ p.results, post a

variable {as as' : Set (Access κ)} {post post' : α → Prop}

theorem Within.mono (h : p.Within as post) (has : as ⊆ as') (hpost : ∀ a, post a → post' a) :
    p.Within as' post' :=
  ⟨h.accesses.trans has, fun a ha => hpost a (h.results a ha)⟩

theorem Within.of_mem_trace (h : p.Within as post) (hmem : access ∈ p.trace adapter s) : access ∈ as :=
  h.accesses (mem_accesses_of_mem_trace hmem)

theorem within_pure (h : post a) : (Pure.pure a : Program κ ν α).Within as post :=
  ⟨Set.empty_subset _, fun _ ha => Set.mem_singleton_iff.mp ha ▸ h⟩

theorem within_fault : (fault : Program κ ν α).Within as post :=
  ⟨Set.empty_subset _, fun _ h => nomatch h⟩

theorem within_ofOption {a : Option α} (h : ∀ b, a = some b → post b) :
    (ofOption a : Program κ ν α).Within as post := by
  cases a with
  | none => exact within_fault
  | some b => exact within_pure (h b rfl)

theorem Within.next {c : Call κ ν} {next : c.Answer → Program κ ν α}
    (h : Within as post (.call c next)) (answer : c.Answer) : (next answer).Within as post :=
  ⟨fun _ haccess => h.accesses (Or.inr (Set.mem_iUnion.mpr ⟨answer, haccess⟩)),
    fun a ha => h.results a (Set.mem_iUnion.mpr ⟨answer, ha⟩)⟩

theorem within_call {c : Call κ ν} {next : c.Answer → Program κ ν α} (hc : c.access ∈ as)
    (hnext : ∀ answer, (next answer).Within as post) : Within as post (.call c next) := by
  refine ⟨?_, fun a ha => ?_⟩
  · rintro access (rfl | haccess)
    · exact hc
    · obtain ⟨answer, haccess⟩ := Set.mem_iUnion.mp haccess
      exact (hnext answer).accesses haccess
  · obtain ⟨answer, ha⟩ := Set.mem_iUnion.mp ha
    exact (hnext answer).results a ha

theorem within_read {key : κ} (h : .read key ∈ as) :
    (read key : Program κ ν _).Within as fun _ => True :=
  within_call h fun _ => within_pure trivial

theorem Within.bind {post' : β → Prop} (hp : p.Within as post)
    (hf : ∀ a, post a → (f a).Within as post') : (p >>= f).Within as post' := by
  change (p.bind f).Within as post'
  induction p with
  | pure a => exact hf a (hp.results a rfl)
  | fault => exact within_fault
  | call c next ih =>
    exact within_call (hp.accesses (Or.inl rfl)) fun answer => ih answer (hp.next answer)

theorem within_mapM {p : α → Program κ ν β} {post : α → β → Prop}
    (h : ∀ a ∈ l, (p a).Within as (post a)) :
    (l.mapM p).Within as fun bs => Forall₂ post l bs := by
  induction l with
  | nil => exact within_pure .nil
  | cons a l ih =>
    rw [mapM_cons]
    exact (h a mem_cons_self).bind fun b hb =>
      (ih fun a ha => h a (mem_cons_of_mem _ ha)).bind fun bs hbs =>
        within_pure (.cons hb hbs)

theorem within_perform {calls : List (Call κ ν)} (h : ∀ c ∈ calls, c.access ∈ as) :
    (perform calls).Within as fun _ => True := by
  rw [perform]
  generalize true = ok
  induction calls generalizing ok with
  | nil => exact within_pure trivial
  | cons c calls ih =>
    exact within_call (h c mem_cons_self) fun answer =>
      ih (fun c hc => h c (mem_cons_of_mem _ hc)) _

/-! ## Programs that only read -/

/-- The result if `lookup` gives the records; there is none if the program writes. -/
def eval (lookup : κ → Option ν) : Program κ ν α → Option α
  | .pure a => some a
  | .fault => none
  | .call (.read key) next => (next (lookup key)).eval lookup
  | .call _ _ => none

/-- The program makes no other calls than reads, of the keys in `keys`. -/
def ReadsOnly (keys : Set κ) (p : Program κ ν α) : Prop :=
  p.Within (Access.read '' keys) fun _ => True

variable {lookup lookup' : κ → Option ν} {keys : Set κ}

@[simp]
theorem eval_pure (a : α) : (Pure.pure a : Program κ ν α).eval lookup = some a := rfl

@[simp]
theorem eval_ofOption (a : Option α) : (ofOption a : Program κ ν α).eval lookup = a := by
  cases a <;> rfl

@[simp]
theorem eval_read (key : κ) : (read key : Program κ ν _).eval lookup = some (lookup key) := rfl

@[simp]
theorem eval_bind (p : Program κ ν α) (f : α → Program κ ν β) :
    (p >>= f).eval lookup = (p.eval lookup).bind fun a => (f a).eval lookup := by
  change (p.bind f).eval lookup = _
  induction p with
  | pure a => rfl
  | fault => rfl
  | call c next ih =>
    cases c with
    | read key => exact ih _
    | _ => rfl

@[simp]
theorem eval_map (f : α → β) (p : Program κ ν α) :
    (f <$> p).eval lookup = (p.eval lookup).map f := by
  rw [← bind_pure_comp, eval_bind]
  cases p.eval lookup <;> rfl

theorem eval_mapM {p : α → Program κ ν β} :
    (l.mapM p).eval lookup = l.mapM fun a => (p a).eval lookup := by
  induction l with
  | nil => rfl
  | cons a l ih =>
    simp only [mapM_cons, eval_bind, ih, eval_pure]
    rfl

theorem run_eq_eval (hp : p.ReadsOnly keys)
    (hreads : ∀ key ∈ keys, adapter.answer s (.read key) = some (lookup key, s)) :
    p.run adapter s = (p.eval lookup).map fun a => (a, s) := by
  induction p with
  | pure a => rfl
  | fault => rfl
  | call c next ih =>
    obtain ⟨key, hkey, haccess⟩ := hp.accesses (Or.inl rfl)
    cases c with
    | read key' =>
      obtain rfl := Access.read.inj haccess
      rw [run, hreads key hkey]
      exact ih _ (Within.next hp _)
    | insert => cases haccess
    | update => cases haccess
    | delete => cases haccess

theorem ReadsOnly.keeps (hp : p.ReadsOnly keys)
    (hreads : ∀ key ∈ keys, ∀ r, adapter.answer s (.read key) = some r → r.2 = s) {r : α × σ}
    (hrun : p.run adapter s = some r) : r.2 = s := by
  induction p with
  | pure a =>
    cases hrun
    rfl
  | fault => cases hrun
  | call c next ih =>
    obtain ⟨key, hkey, haccess⟩ := hp.accesses (Or.inl rfl)
    cases c with
    | read key' =>
      obtain rfl := Access.read.inj haccess
      obtain ⟨answer, hanswer, hrun⟩ := bind_eq_some_iff.mp hrun
      rw [hreads key hkey answer hanswer] at hrun
      exact ih _ (Within.next hp _) hrun
    | insert => cases haccess
    | update => cases haccess
    | delete => cases haccess

theorem eval_congr (hp : p.ReadsOnly keys) (h : ∀ key ∈ keys, lookup key = lookup' key) :
    p.eval lookup = p.eval lookup' := by
  induction p with
  | pure a => rfl
  | fault => rfl
  | call c next ih =>
    obtain ⟨key, hkey, haccess⟩ := hp.accesses (Or.inl rfl)
    cases c with
    | read key' =>
      obtain rfl := Access.read.inj haccess
      rw [eval, eval, h key hkey]
      exact ih _ (Within.next hp _)
    | insert => cases haccess
    | update => cases haccess
    | delete => cases haccess

/-! ## Dry runs

No read finds a record and no write succeeds, so that the program only tells which keys it accesses. -/

def dryRun : Program κ ν α → Option α
  | .pure a => some a
  | .fault => none
  | .call c next => (next c.blank).dryRun

def dryTrace : Program κ ν α → List (Access κ)
  | .pure _ => []
  | .fault => []
  | .call c next => c.access :: (next c.blank).dryTrace

/-- The dry run makes the accesses `as` and ends with the result `a`. -/
structure Dry (as : List (Access κ)) (a : α) (p : Program κ ν α) : Prop where
  trace : p.dryTrace = as
  run : p.dryRun = some a

theorem dryRun_bind (p : Program κ ν α) (f : α → Program κ ν β) :
    (p >>= f).dryRun = p.dryRun.bind fun a => (f a).dryRun := by
  change (p.bind f).dryRun = _
  induction p with
  | pure a => rfl
  | fault => rfl
  | call c next ih => exact ih _

theorem dryTrace_bind (p : Program κ ν α) (f : α → Program κ ν β) :
    (p >>= f).dryTrace = p.dryTrace ++ p.dryRun.elim [] fun a => (f a).dryTrace := by
  change (p.bind f).dryTrace = _
  induction p with
  | pure a => rfl
  | fault => rfl
  | call c next ih => exact congrArg (c.access :: ·) (ih _)

theorem dry_pure (a : α) : (Pure.pure a : Program κ ν α).Dry [] a := ⟨rfl, rfl⟩

theorem dry_read (key : κ) : (read key : Program κ ν _).Dry [.read key] none := ⟨rfl, rfl⟩

theorem Dry.bind {as bs : List (Access κ)} (hp : p.Dry as a) (hf : (f a).Dry bs b) :
    (p >>= f).Dry (as ++ bs) b := by
  refine ⟨?_, ?_⟩
  · rw [dryTrace_bind, hp.trace, hp.run, elim_some, hf.trace]
  · rw [dryRun_bind, hp.run, Option.bind_some, hf.run]

/-- A last step that makes no calls. -/
theorem Dry.bind_nil {as : List (Access κ)} (hp : p.Dry as a) (hf : (f a).Dry [] b) :
    (p >>= f).Dry as b :=
  append_nil as ▸ hp.bind hf

theorem dry_mapM {p : α → Program κ ν β} {as : α → List (Access κ)} {b : α → β}
    (h : ∀ a ∈ l, (p a).Dry (as a) (b a)) : (l.mapM p).Dry (l.flatMap as) (l.map b) := by
  induction l with
  | nil => exact dry_pure []
  | cons a l ih =>
    rw [mapM_cons, flatMap_cons]
    exact (h a mem_cons_self).bind
      ((ih fun a ha => h a (mem_cons_of_mem _ ha)).bind_nil (dry_pure _))

theorem exists_dry_mapM {p : α → Program κ ν β} {as : α → List (Access κ)} {post : α → β → Prop}
    (h : ∀ a ∈ l, ∃ b, post a b ∧ (p a).Dry (as a) b) :
    ∃ bs, Forall₂ post l bs ∧ (l.mapM p).Dry (l.flatMap as) bs := by
  induction l with
  | nil => exact ⟨[], .nil, dry_pure []⟩
  | cons a l ih =>
    obtain ⟨b, hpost, hb⟩ := h a mem_cons_self
    obtain ⟨bs, hposts, hbs⟩ := ih fun a ha => h a (mem_cons_of_mem _ ha)
    rw [mapM_cons, flatMap_cons]
    exact ⟨b :: bs, .cons hpost hposts, hb.bind (hbs.bind_nil (dry_pure _))⟩

theorem dry_perform (calls : List (Call κ ν)) :
    (perform calls).Dry (calls.map Call.access) (calls.all fun c => c.ok c.blank) := by
  suffices h : ∀ ok, (calls.foldlM (fun ok c => .call c fun answer => .pure (ok && c.ok answer)) ok :
      Program κ ν Bool).Dry (calls.map Call.access) (ok && calls.all fun c => c.ok c.blank) from h true
  induction calls with
  | nil => exact fun ok => by simpa using dry_pure ok
  | cons c calls ih =>
    intro ok
    rw [foldlM_cons, all_cons, ← Bool.and_assoc]
    have hcall : (.call c fun answer => .pure (ok && c.ok answer) : Program κ ν Bool).Dry [c.access]
        (ok && c.ok c.blank) := ⟨rfl, rfl⟩
    exact hcall.bind (ih _)

theorem Within.append {as bs : List (Access κ)} {post' : β → Prop}
    (hp : p.Within {access | access ∈ as} post)
    (hf : ∀ a, post a → (f a).Within {access | access ∈ bs} post') :
    (p >>= f).Within {access | access ∈ as ++ bs} post' :=
  (hp.mono (fun _ h => mem_append_left _ h) fun _ h => h).bind fun a ha =>
    (hf a ha).mono (fun _ h => mem_append_right _ h) fun _ h => h

/-- The dry run makes the accesses `as` and has the result `a`, and whatever the answers are, the
program makes no others and its results satisfy `post`. -/
structure Static (as : List (Access κ)) (a : α) (post : α → Prop) (p : Program κ ν α) : Prop where
  within : p.Within {access | access ∈ as} post
  dry : p.Dry as a

theorem within_mapM_flatMap {p : α → Program κ ν β} {as : α → List (Access κ)} {post : α → β → Prop}
    (h : ∀ a ∈ l, (p a).Within {access | access ∈ as a} (post a)) :
    (l.mapM p).Within {access | access ∈ l.flatMap as} fun bs => Forall₂ post l bs :=
  within_mapM fun a ha => (h a ha).mono
    (fun _ hmem => mem_flatMap.mpr ⟨a, ha, hmem⟩) fun _ hpost => hpost

theorem static_mapM {p : α → Program κ ν β} {as : α → List (Access κ)} {b : α → β} {post : α → β → Prop}
    (h : ∀ a ∈ l, (p a).Static (as a) (b a) (post a)) :
    (l.mapM p).Static (l.flatMap as) (l.map b) fun bs => Forall₂ post l bs :=
  ⟨within_mapM_flatMap fun a ha => (h a ha).within, dry_mapM fun a ha => (h a ha).dry⟩

theorem Static.map {as : List (Access κ)} {g : α → β} (h : p.Static as a post)
    (hb : g a = b) : Static as b (fun _ => True) (p >>= fun a => Pure.pure (g a)) :=
  ⟨h.within.bind fun _ _ => within_pure trivial, hb ▸ h.dry.bind_nil (dry_pure _)⟩

theorem Static.bind {as bs : List (Access κ)} {b : α → β} {post' : β → Prop}
    (hp : p.Static as a fun _ => True) (hf : ∀ a, (f a).Static bs (b a) post') :
    (p >>= f).Static (as ++ bs) (b a) post' :=
  ⟨hp.within.append fun a _ => (hf a).within, hp.dry.bind (hf a).dry⟩

theorem exists_dry_bind {as bs : List (Access κ)} (hp : ∃ a, p.Dry as a)
    (hf : ∀ a, ∃ b, (f a).Dry bs b) : ∃ b, (p >>= f).Dry (as ++ bs) b := by
  obtain ⟨a, hp⟩ := hp
  obtain ⟨b, hf⟩ := hf a
  exact ⟨b, hp.bind hf⟩

theorem exists_dry_map {as : List (Access κ)} {g : α → β} (hp : ∃ a, p.Dry as a) :
    ∃ b, (p >>= fun a => Pure.pure (g a)).Dry as b := by
  obtain ⟨a, hp⟩ := hp
  exact ⟨_, hp.bind_nil (dry_pure _)⟩

end Program

/-! ## Keys one by one

An adapter separates the keys if a call changes only what belongs to its key, and depends on nothing
else.  The calls on one key can then be looked at on their own. -/

variable {κ ν σ τ : Type} [DecidableEq κ]

/-- The calls on one key, in their order. -/
def history (key : κ) (calls : List (Call κ ν)) : List (Call κ ν) := calls.filter (·.key = key)

/-- `view s key` is what belongs to the key, and `loc` is how the calls on the key change it. -/
structure Adapter.Separates (adapter : Adapter κ ν σ) (Good : σ → Prop) (view : σ → κ → τ)
    (loc : τ → Call κ ν → Option τ) : Prop where
  fault : ∀ {s c}, Good s → loc (view s c.key) c = none → adapter.next s c = none
  step : ∀ {s c x}, Good s → loc (view s c.key) c = some x →
    ∃ s', adapter.next s c = some s' ∧ Good s' ∧ view s' = Function.update (view s) c.key x

theorem Adapter.Separates.run {adapter : Adapter κ ν σ} {Good : σ → Prop} {view : σ → κ → τ}
    {loc : τ → Call κ ν → Option τ} (hsep : adapter.Separates Good view loc) {s : σ} (hs : Good s)
    (calls : List (Call κ ν)) :
    (Lts.run adapter.next s calls = none ∧
        ∃ c ∈ calls, Lts.run loc (view s c.key) (history c.key calls) = none) ∨
      ∃ s', Lts.run adapter.next s calls = some s' ∧ Good s' ∧
        ∀ key, Lts.run loc (view s key) (history key calls) = some (view s' key) := by
  induction calls generalizing s with
  | nil => exact .inr ⟨s, rfl, hs, fun _ => rfl⟩
  | cons c calls ih =>
    have hself : history c.key (c :: calls) = c :: history c.key calls :=
      filter_cons_of_pos (by simp)
    have hother : ∀ key, key ≠ c.key → history key (c :: calls) = history key calls :=
      fun key hne => filter_cons_of_neg (by simpa using hne.symm)
    cases hloc : loc (view s c.key) c with
    | none =>
      refine .inl ⟨by rw [Lts.run_cons, hsep.fault hs hloc]; rfl, c, mem_cons_self, ?_⟩
      rw [hself, Lts.run_cons, hloc]
      rfl
    | some x =>
      obtain ⟨s', hnext, hs', hview⟩ := hsep.step hs hloc
      -- the first call moves the view of its key, and the others are where they were
      have hrun : ∀ key, Lts.run loc (view s key) (history key (c :: calls)) =
          Lts.run loc (view s' key) (history key calls) := by
        intro key
        rcases eq_or_ne key c.key with rfl | hne
        · rw [hself, Lts.run_cons, hloc, hview, Function.update_self]
          rfl
        · rw [hother key hne, hview, Function.update_of_ne hne]
      simp only [hrun, Lts.run_cons, hnext, Option.bind_some]
      rcases ih hs' with ⟨hnone, c', hc', hrun'⟩ | h
      · exact .inl ⟨hnone, c', mem_cons_of_mem _ hc', hrun'⟩
      · exact .inr h

/-- A program sees of a state only what its calls are answered, so that states with the same views
cannot be told apart. -/
theorem Adapter.Separates.run_congr {adapter : Adapter κ ν σ} {Good : σ → Prop} {view : σ → κ → τ}
    {loc : τ → Call κ ν → Option τ} (hsep : adapter.Separates Good view loc)
    (hanswer : ∀ {s s' c}, Good s → Good s' → view s c.key = view s' c.key →
      (adapter.answer s c).map Prod.fst = (adapter.answer s' c).map Prod.fst)
    {s s' : σ} (hs : Good s) (hs' : Good s') (hview : view s = view s') {α : Type}
    (p : Program κ ν α) :
    Rel (fun r r' => r.1 = r'.1 ∧ Good r.2 ∧ Good r'.2 ∧ view r.2 = view r'.2)
      (p.run adapter s) (p.run adapter s') := by
  induction p generalizing s s' with
  | pure a => exact .some ⟨rfl, hs, hs', hview⟩
  | fault => exact .none
  | call c next ih =>
    have hans := hanswer hs hs' (congrFun hview c.key)
    rw [Program.run, Program.run]
    cases hloc : loc (view s c.key) c with
    | none =>
      have hnone := map_eq_none_iff.mp (hsep.fault hs hloc)
      rw [hnone, map_none, eq_comm, map_eq_none_iff] at hans
      rw [hnone, hans]
      exact .none
    | some x =>
      obtain ⟨_, hnext, hgood, hview₁⟩ := hsep.step hs hloc
      obtain ⟨_, hnext', hgood', hview₂⟩ := hsep.step hs' (hview ▸ hloc)
      obtain ⟨r, hr, rfl⟩ := map_eq_some_iff.mp hnext
      obtain ⟨r', hr', rfl⟩ := map_eq_some_iff.mp hnext'
      rw [hr, hr', Option.map_some, Option.map_some, some_inj] at hans
      rw [hr, hr', Option.bind_some, Option.bind_some, ← hans]
      exact ih r.1 hgood hgood' (hview₁.trans (hview ▸ hview₂.symm))

/-- A program that does not access a key leaves it as it is. -/
theorem Adapter.Separates.frame {adapter : Adapter κ ν σ} {Good : σ → Prop} {view : σ → κ → τ}
    {loc : τ → Call κ ν → Option τ} (hsep : adapter.Separates Good view loc) {α : Type}
    {p : Program κ ν α} {post : α → Prop} {key : κ} (hp : p.Within {access | access.key ≠ key} post)
    {s : σ} (hs : Good s) {r : α × σ} (hrun : p.run adapter s = some r) :
    Good r.2 ∧ view r.2 key = view s key := by
  induction p generalizing s with
  | pure a =>
    cases hrun
    exact ⟨hs, rfl⟩
  | fault => cases hrun
  | call c next ih =>
    obtain ⟨r₁, hanswer, hrun⟩ := bind_eq_some_iff.mp hrun
    have hnext : adapter.next s c = some r₁.2 := by rw [Adapter.next, hanswer]; rfl
    have hkey : c.key ≠ key := by
      have haccess : c.access.key ≠ key := hp.accesses (Or.inl rfl)
      cases c <;> exact haccess
    cases hloc : loc (view s c.key) c with
    | none => rw [hsep.fault hs hloc] at hnext; cases hnext
    | some x =>
      obtain ⟨s', hs', hgood, hview⟩ := hsep.step hs hloc
      obtain rfl : r₁.2 = s' := some_inj.mp (hnext.symm.trans hs')
      obtain ⟨hgood', hsame⟩ := ih r₁.1 (hp.next r₁.1) hgood hrun
      exact ⟨hgood', by rw [hsame, hview, Function.update_of_ne hkey.symm]⟩

end KeyValue
