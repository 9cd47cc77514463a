/-
# Key-value programs

The execution of a transaction works on the copy of the records that the transaction carries: each key
has the value that was read and a new value.  When the transaction commits, the new values of all keys
declared as written go to the storage.
-/
import Penteract.RemasterManager

namespace Slog

/-! ## Writing back -/

namespace Transaction

/-- One iteration of the first loop of `ApplyWrites`. -/
def applyWrite (isLocal : Key → Bool) (storage : Storage) (kv : KeyValueEntry) : Storage :=
  if !isLocal kv.key || kv.type = .read then storage
  else
    Function.update storage kv.key
      (some { value := kv.newValue, metadata := kv.metadata.getD { master := 0 } })

def applyWrites (isLocal : Key → Bool) (t : Transaction) (storage : Storage) : Storage :=
  t.deletedKeys.foldl (fun storage key => Function.update storage key none)
    (t.keys.foldl (applyWrite isLocal) storage)

end Transaction

section ApplyWrites

variable {isLocal : Key → Bool} {storage : Storage} {keys : List KeyValueEntry} {key : Key}

/-- The record that is written for an entry. -/
def KeyValueEntry.newRecord (kv : KeyValueEntry) : Record :=
  { value := kv.newValue, metadata := kv.metadata.getD { master := 0 } }

theorem foldl_applyWrite_other
    (h : ∀ kv ∈ keys, kv.key = key → isLocal key = false ∨ kv.type = .read) :
    keys.foldl (Transaction.applyWrite isLocal) storage key = storage key := by
  induction keys generalizing storage with
  | nil => rfl
  | cons kv keys ih =>
    rw [List.foldl_cons, ih fun kv hkv => h kv (List.mem_cons_of_mem _ hkv), Transaction.applyWrite]
    split_ifs with hskip
    · rfl
    · rw [Function.update_of_ne]
      rintro rfl
      rcases h kv List.mem_cons_self rfl with hlocal | hread
      · exact hskip (by simp [hlocal])
      · exact hskip (by simp [hread])

theorem foldl_applyWrite_self (hnodup : (keys.map KeyValueEntry.key).Nodup) {kv : KeyValueEntry}
    (hkv : kv ∈ keys) (hlocal : isLocal kv.key = true) (hwrite : kv.type = .write) :
    keys.foldl (Transaction.applyWrite isLocal) storage kv.key = some kv.newRecord := by
  obtain ⟨before, after, rfl⟩ := List.append_of_mem hkv
  rw [List.map_append, List.map_cons] at hnodup
  have hafter : ∀ kv' ∈ after, kv'.key ≠ kv.key := fun kv' hkv' heq =>
    (List.nodup_cons.mp (List.nodup_append.mp hnodup).2.1).1 (heq ▸ List.mem_map_of_mem hkv')
  rw [List.foldl_append, List.foldl_cons,
    foldl_applyWrite_other fun kv' hkv' heq => absurd heq (hafter kv' hkv'), Transaction.applyWrite,
    if_neg (by simp [hlocal, hwrite]), Function.update_self]
  rfl

end ApplyWrites

/-! ## The loop over the procedures -/

/-- The procedures of a key-value program. -/
inductive Procedure where
  | set (key : Key) (value : Value)
  | del (key : Key)
  | copy (src dst : Key)
  | eq (key : Key) (value : Value)
  deriving DecidableEq, Repr

/-- The arguments by which a transaction names the procedure. -/
def Procedure.args : Procedure → List String
  | .set key value => ["SET", key, value]
  | .del key => ["DEL", key]
  | .copy src dst => ["COPY", src, dst]
  | .eq key value => ["EQ", key, value]

namespace KeyValueExecution

/-- The variables of the loop: the keys of the transaction, and whether and why it aborts. -/
structure State where
  keys : List KeyValueEntry
  aborted : Bool := false
  abortReason : String := ""
  deriving DecidableEq, Repr

/-- The index finds the first entry of a key. -/
def find (keys : List KeyValueEntry) (key : Key) : Option KeyValueEntry :=
  keys.find? (·.key = key)

def setNewValue (value : Value) (key : Key) : List KeyValueEntry → List KeyValueEntry
  | [] => []
  | kv :: keys =>
    if kv.key = key then { kv with newValue := value } :: keys
    else kv :: setNewValue value key keys

/-- One iteration of the loop of `Execute`.  `none` is an access past the end of the arguments, or of
the index: `DEL` goes on with the next procedure if its key is declared, and otherwise looks at the
entry that was not found. -/
def executeProcedure (s : State) (args : List String) : Option State :=
  match args with
  | [] => some s
  | "SET" :: args =>
    args[0]?.bind fun key =>
      match find s.keys key with
      | none => some s
      | some kv =>
        if kv.type ≠ .write then some s
        else args[1]?.map fun value => { s with keys := setNewValue value key s.keys }
  | "DEL" :: args => args[0]?.bind fun key => (find s.keys key).map fun _ => s
  | "COPY" :: args =>
    args[0]?.bind fun src => args[1]?.map fun dst =>
      match find s.keys src, find s.keys dst with
      | some srcValue, some dstValue =>
        if dstValue.type ≠ .write then s
        else { s with keys := setNewValue srcValue.value dst s.keys }
      | _, _ => s
  | "EQ" :: args =>
    args[0]?.bind fun key =>
      match find s.keys key with
      | none => some s
      | some kv =>
        args[1]?.map fun value =>
          if kv.value ≠ value then
            { s with
              aborted := true
              abortReason := s.abortReason ++ "Key = " ++ key ++ ". Expected value = " ++ value ++
                ". Actual value = " ++ kv.value }
          else s
  | "SLEEP" :: args => args[0]?.map fun _ => s
  | _ => some s

def execute (isLocal : Key → Bool) (t : Transaction) (procedures : List (List String))
    (storage : Storage) : Option (Transaction × Storage) :=
  (procedures.foldlM executeProcedure { keys := t.keys }).map fun s =>
    let t := { t with keys := s.keys }
    if s.aborted then
      ({ t with status := .aborted, abortReason := s.abortReason }, storage)
    else
      let t := { t with status := .committed }
      (t, t.applyWrites isLocal storage)

/-! ## What a procedure is for -/

/-- An absent key reads as the empty string. -/
def storedValue (storage : Storage) (key : Key) : Value := ((storage key).map Record.value).getD ""

def Declared (keys : List KeyValueEntry) (key : Key) : Prop := ∃ kv ∈ keys, kv.key = key

instance (keys : List KeyValueEntry) (key : Key) : Decidable (Declared keys key) :=
  inferInstanceAs (Decidable (∃ kv ∈ keys, kv.key = key))

/-- What a procedure does to a key: nothing, or it writes a value, or it deletes the key. -/
def effect (keys : List KeyValueEntry) (storage : Storage) (key : Key) :
    Procedure → Option (Option Value)
  | .set key' value => if key' = key then some (some value) else none
  | .del key' => if key' = key then some none else none
  | .copy src dst =>
    if dst = key ∧ Declared keys src then some (some (storedValue storage src)) else none
  | .eq _ _ => none

/-- What the last procedure that touches the key does to it. -/
def lastEffect (keys : List KeyValueEntry) (storage : Storage) (key : Key) :
    List Procedure → Option (Option Value)
  | [] => none
  | p :: ps => (lastEffect keys storage key ps).or (effect keys storage key p)

/-- All comparisons with declared keys hold. -/
def EqsHold (keys : List KeyValueEntry) (storage : Storage) (ps : List Procedure) : Prop :=
  ∀ key value, .eq key value ∈ ps → Declared keys key → storedValue storage key = value

/-- The reference semantics of a program that commits, for the keys of a partition. -/
structure Follows (isLocal : Key → Bool) (keys : List KeyValueEntry) (ps : List Procedure)
    (storage storage' : Storage) : Prop where
  written : ∀ kv ∈ keys, kv.type = .write → isLocal kv.key = true → ∀ value,
    lastEffect keys storage kv.key ps = some (some value) →
      (storage' kv.key).map Record.value = some value
  deleted : ∀ kv ∈ keys, kv.type = .write → isLocal kv.key = true →
    lastEffect keys storage kv.key ps = some none → storage' kv.key = none
  untouched : ∀ kv ∈ keys, kv.type = .write → isLocal kv.key = true →
    lastEffect keys storage kv.key ps = none → storage' kv.key = storage kv.key
  others : ∀ key, (∀ kv ∈ keys, kv.key = key → isLocal key = false ∨ kv.type = .read) →
    storage' key = storage key

/-! ## What the loop does -/

/-- The keys with other new values. -/
def withNewValues (newValue : KeyValueEntry → Value) (keys : List KeyValueEntry) :
    List KeyValueEntry :=
  keys.map fun kv => { kv with newValue := newValue kv }

/-- What the last procedure that writes the key writes; deletions do nothing. -/
def lastWrite (keys : List KeyValueEntry) (storage : Storage) (key : Key) :
    List Procedure → Option Value
  | [] => none
  | p :: ps => (lastWrite keys storage key ps).or (effect keys storage key p).join

section Loop

variable {isLocal : Key → Bool} {t : Transaction} {storage : Storage} {keys : List KeyValueEntry}
  {key : Key} {p : Procedure} {ps : List Procedure} {newValue : KeyValueEntry → Value}

theorem find_eq_none : find keys key = none ↔ ¬ Declared keys key := by
  simp [find, Declared]

variable {kv : KeyValueEntry} {s : State}

theorem find_eq_some (h : find keys key = some kv) : kv ∈ keys ∧ kv.key = key :=
  ⟨List.mem_of_find?_eq_some h, by simpa using List.find?_some h⟩

theorem find_withNewValues :
    find (withNewValues newValue keys) key =
      (find keys key).map fun kv => { kv with newValue := newValue kv } := by
  simp [find, withNewValues, List.find?_map, Function.comp_def]

theorem setNewValue_withNewValues (hnodup : (keys.map KeyValueEntry.key).Nodup) (value : Value) :
    setNewValue value key (withNewValues newValue keys) =
      withNewValues (fun kv => if kv.key = key then value else newValue kv) keys := by
  induction keys with
  | nil => rfl
  | cons kv keys ih =>
    obtain ⟨hkv, hnodup⟩ := List.nodup_cons.mp hnodup
    have ih := ih hnodup
    simp only [withNewValues, List.map_cons, setNewValue] at ih ⊢
    by_cases hkey : kv.key = key
    · rw [if_pos hkey, if_pos hkey]
      refine congrArg _ (List.map_congr_left fun kv' hkv' => ?_)
      rw [if_neg]
      rintro rfl
      exact hkv (hkey ▸ List.mem_map_of_mem hkv')
    · rw [if_neg hkey, if_neg hkey, ih]

/-- The new values after a procedure. -/
def writeNew (keys : List KeyValueEntry) (storage : Storage) (p : Procedure)
    (newValue : KeyValueEntry → Value) (kv : KeyValueEntry) : Value :=
  if kv.type = .write then (effect keys storage kv.key p).join.getD (newValue kv) else newValue kv

theorem withNewValues_congr {newValue' : KeyValueEntry → Value}
    (h : ∀ kv ∈ keys, newValue kv = newValue' kv) :
    withNewValues newValue keys = withNewValues newValue' keys :=
  List.map_congr_left fun kv hkv => by rw [h kv hkv]

/-- A write to a key changes its entry if the key is declared as written, and nothing otherwise. -/
theorem withNewValues_writeNew (hnodup : (keys.map KeyValueEntry.key).Nodup) {value : Value}
    (heffect : ∀ key', (effect keys storage key' p).join = if key' = key then some value else none) :
    withNewValues (writeNew keys storage p newValue) keys =
      match find keys key with
      | none => withNewValues newValue keys
      | some kv =>
        if kv.type ≠ .write then withNewValues newValue keys
        else withNewValues (fun kv => if kv.key = key then value else newValue kv) keys := by
  have hother {kv : KeyValueEntry} (hkey : kv.key ≠ key) :
      writeNew keys storage p newValue kv = newValue kv := by
    rw [writeNew, heffect, if_neg hkey]
    simp
  cases hfind : find keys key with
  | none =>
    refine withNewValues_congr fun kv hkv => hother fun hkey => ?_
    exact find_eq_none.mp hfind ⟨kv, hkv, hkey⟩
  | some kv =>
    obtain ⟨hmem, rfl⟩ := find_eq_some hfind
    have hself {kv' : KeyValueEntry} (hkv' : kv' ∈ keys) (heq : kv'.key = kv.key) : kv' = kv :=
      List.inj_on_of_nodup_map hnodup hkv' hmem heq
    simp only
    by_cases hwrite : kv.type = .write
    · rw [if_neg (not_not.mpr hwrite)]
      refine withNewValues_congr fun kv' hkv' => ?_
      by_cases heq : kv'.key = kv.key
      · obtain rfl := hself hkv' heq
        rw [writeNew, heffect, if_pos hwrite, if_pos rfl, if_pos rfl]
        rfl
      · rw [hother heq, if_neg heq]
    · rw [if_pos hwrite]
      refine withNewValues_congr fun kv' hkv' => ?_
      by_cases heq : kv'.key = kv.key
      · obtain rfl := hself hkv' heq
        rw [writeNew, if_neg hwrite]
      · exact hother heq

/-- The procedure deletes no undeclared key. -/
def Defined (keys : List KeyValueEntry) : Procedure → Prop
  | .del key => Declared keys key
  | _ => True

theorem eqsHold_cons : EqsHold keys storage (p :: ps) ↔
    EqsHold keys storage [p] ∧ EqsHold keys storage ps := by
  simp only [EqsHold, List.mem_cons, List.not_mem_nil, or_false]
  exact ⟨fun h => ⟨fun k v hp => h k v (.inl hp), fun k v hp => h k v (.inr hp)⟩,
    fun h k v hp => hp.elim (h.1 k v) (h.2 k v)⟩

/-- The effect of a procedure that compares nothing. -/
theorem eqsHold_singleton (h : ∀ key value, p ≠ .eq key value) : EqsHold keys storage [p] := by
  intro key value hp
  exact absurd (List.mem_singleton.mp hp).symm (h key value)

/-- A step of the loop that is defined. -/
theorem executeProcedure_of_defined (hnodup : (keys.map KeyValueEntry.key).Nodup)
    (hread : ∀ kv ∈ keys, kv.value = storedValue storage kv.key)
    (hs : s.keys = withNewValues newValue keys) (hp : Defined keys p) :
    ∃ s', executeProcedure s p.args = some s' ∧
      s'.keys = withNewValues (writeNew keys storage p newValue) keys ∧
      (s'.aborted = true ↔ s.aborted = true ∨ ¬ EqsHold keys storage [p]) := by
  have hvalue {key : Key} {kv : KeyValueEntry} (hfind : find keys key = some kv) :
      kv.value = storedValue storage key := by
    obtain ⟨hmem, rfl⟩ := find_eq_some hfind
    exact hread kv hmem
  have hidle (heffect : ∀ key, (effect keys storage key p).join = none) :
      withNewValues newValue keys = withNewValues (writeNew keys storage p newValue) keys := by
    refine withNewValues_congr fun kv _ => ?_
    rw [writeNew, heffect]
    simp
  cases p with
  | set key value =>
    have hholds : EqsHold keys storage [.set key value] :=
      eqsHold_singleton fun _ _ h => nomatch h
    have heffect (key' : Key) : (effect keys storage key' (.set key value)).join =
        if key' = key then some value else none := by
      by_cases h : key = key'
      · simp [effect, h]
      · simp [effect, h, Ne.symm h]
    rw [withNewValues_writeNew hnodup heffect]
    simp only [Procedure.args, executeProcedure, List.getElem?_cons_zero, Option.bind_some, hs,
      find_withNewValues]
    cases hfind : find keys key with
    | none => exact ⟨s, rfl, hs, by simp [hholds]⟩
    | some kv =>
      simp only [Option.map_some]
      by_cases hwrite : kv.type = .write
      · simp only [hwrite, ne_eq, not_true_eq_false, if_false]
        exact ⟨_, rfl, setNewValue_withNewValues hnodup value, by simp [hholds]⟩
      · simp only [ne_eq, hwrite, not_false_eq_true, if_true]
        exact ⟨s, rfl, hs, by simp [hholds]⟩
  | del key =>
    have hholds : EqsHold keys storage [.del key] :=
      eqsHold_singleton fun _ _ h => nomatch h
    obtain ⟨kv, hfind⟩ := Option.ne_none_iff_exists'.mp (mt find_eq_none.mp (not_not.mpr hp))
    refine ⟨s, ?_, hs.trans (hidle fun key' => ?_), by simp [hholds]⟩
    · simp [Procedure.args, executeProcedure, hs, find_withNewValues, hfind]
    · rw [effect]
      split_ifs <;> rfl
  | copy src dst =>
    have hholds : EqsHold keys storage [.copy src dst] :=
      eqsHold_singleton fun _ _ h => nomatch h
    simp only [Procedure.args, executeProcedure, List.getElem?_cons_zero,
      List.getElem?_cons_succ, Option.bind_some, Option.map_some, hs, find_withNewValues]
    cases hsrc : find keys src with
    | none =>
      refine ⟨s, rfl, hs.trans (hidle fun key' => ?_), by simp [hholds]⟩
      rw [effect, if_neg fun h => find_eq_none.mp hsrc h.2]
      rfl
    | some srcValue =>
      have hdeclared : Declared keys src := ⟨srcValue, find_eq_some hsrc⟩
      have heffect (key' : Key) : (effect keys storage key' (.copy src dst)).join =
          if key' = dst then some (storedValue storage src) else none := by
        by_cases h : dst = key'
        · simp [effect, h, hdeclared]
        · simp [effect, h, Ne.symm h]
      rw [withNewValues_writeNew hnodup heffect]
      cases hdst : find keys dst with
      | none => exact ⟨s, rfl, hs, by simp [hholds]⟩
      | some kv =>
        simp only [Option.map_some]
        by_cases hwrite : kv.type = .write
        · simp only [hwrite, ne_eq, not_true_eq_false, if_false, ← hvalue hsrc]
          exact ⟨_, rfl, setNewValue_withNewValues hnodup _, by simp [hholds]⟩
        · simp only [ne_eq, hwrite, not_false_eq_true, if_true]
          exact ⟨s, rfl, hs, by simp [hholds]⟩
  | eq key value =>
    have hsame := hidle fun key' => rfl
    have hholds : EqsHold keys storage [.eq key value] ↔
        (Declared keys key → storedValue storage key = value) := by
      simp [EqsHold]
    simp only [Procedure.args, executeProcedure, List.getElem?_cons_zero,
      List.getElem?_cons_succ, Option.bind_some, hs, find_withNewValues]
    cases hfind : find keys key with
    | none =>
      refine ⟨s, rfl, hs.trans hsame, ?_⟩
      rw [hholds]
      simp [find_eq_none.mp hfind]
    | some kv =>
      have hdeclared : Declared keys key := ⟨kv, find_eq_some hfind⟩
      simp only [Option.map_some, hvalue hfind]
      by_cases heq : storedValue storage key = value
      · refine ⟨s, by simp [heq], hs.trans hsame, ?_⟩
        rw [hholds]
        simp [heq]
      · rw [if_pos heq]
        refine ⟨_, rfl, hsame, ?_⟩
        rw [hholds]
        simp [hdeclared, heq]

/-- Deleting a key that is not declared looks at an entry that is not there. -/
theorem executeProcedure_of_not_defined (hs : s.keys = withNewValues newValue keys)
    (hp : ¬ Defined keys p) : executeProcedure s p.args = none := by
  cases p with
  | del key =>
    have hfind : find keys key = none := find_eq_none.mpr hp
    simp [Procedure.args, executeProcedure, hs, find_withNewValues, hfind]
  | set key value => exact absurd trivial hp
  | copy src dst => exact absurd trivial hp
  | eq key value => exact absurd trivial hp

/-- The new values after a program. -/
def writeAll (keys : List KeyValueEntry) (storage : Storage) (ps : List Procedure)
    (newValue : KeyValueEntry → Value) (kv : KeyValueEntry) : Value :=
  if kv.type = .write then (lastWrite keys storage kv.key ps).getD (newValue kv) else newValue kv

theorem writeAll_cons :
    writeAll keys storage (p :: ps) newValue =
      writeAll keys storage ps (writeNew keys storage p newValue) := by
  funext kv
  rw [writeAll, writeAll, writeNew, lastWrite]
  split_ifs
  · cases lastWrite keys storage kv.key ps <;> rfl
  · rfl

/-- **The loop** stops only at a deletion of an undeclared key. -/
theorem foldlM_executeProcedure (hnodup : (keys.map KeyValueEntry.key).Nodup)
    (hread : ∀ kv ∈ keys, kv.value = storedValue storage kv.key)
    (hs : s.keys = withNewValues newValue keys) :
    ((∀ p ∈ ps, Defined keys p) → ∃ s',
      (ps.map Procedure.args).foldlM executeProcedure s = some s' ∧
      s'.keys = withNewValues (writeAll keys storage ps newValue) keys ∧
      (s'.aborted = true ↔ s.aborted = true ∨ ¬ EqsHold keys storage ps)) ∧
    ((∃ p ∈ ps, ¬ Defined keys p) →
      (ps.map Procedure.args).foldlM executeProcedure s = none) := by
  induction ps generalizing s newValue with
  | nil =>
    refine ⟨fun _ => ⟨s, rfl, hs.trans (withNewValues_congr fun kv _ => ?_), ?_⟩, by simp⟩
    · simp [writeAll, lastWrite]
    · simp [EqsHold]
  | cons p ps ih =>
    rw [List.map_cons, List.foldlM_cons]
    by_cases hp : Defined keys p
    · obtain ⟨s₁, hs₁, hkeys, habort⟩ := executeProcedure_of_defined hnodup hread hs hp
      obtain ⟨ihdef, ihundef⟩ := ih hkeys
      rw [hs₁]
      refine ⟨fun h => ?_, ?_⟩
      · obtain ⟨s', hs', hkeys', habort'⟩ := ihdef fun q hq => h q (List.mem_cons_of_mem _ hq)
        have hcons : EqsHold keys storage (p :: ps) ↔ _ := eqsHold_cons
        refine ⟨s', hs', writeAll_cons ▸ hkeys', ?_⟩
        rw [habort', habort, hcons, not_and_or, or_assoc]
      · rintro ⟨q, hq, hnot⟩
        rcases List.mem_cons.mp hq with rfl | hq
        · exact absurd hp hnot
        · exact ihundef ⟨q, hq, hnot⟩
    · rw [executeProcedure_of_not_defined hs hp]
      exact ⟨fun h => absurd (h p List.mem_cons_self) hp, fun _ => rfl⟩

theorem lastWrite_of_lastEffect {last : Option (Option Value)}
    (h : lastEffect keys storage key ps = last) (hdel : last ≠ some none) :
    lastWrite keys storage key ps = last.join := by
  subst h
  induction ps with
  | nil => rfl
  | cons p ps ih =>
    rw [lastEffect] at hdel ⊢
    rw [lastWrite]
    cases hrest : lastEffect keys storage key ps with
    | none =>
      rw [hrest] at ih
      rw [ih (by simp)]
      simp
    | some e =>
      rw [hrest] at ih hdel
      cases e with
      | none => exact absurd rfl hdel
      | some value =>
        rw [ih (by simp)]
        rfl

/-- What a program leaves in the storage, when it writes back. -/
theorem applyWrites_eq (storage : Storage) (newValue : KeyValueEntry → Value)
    (hnodup : (keys.map KeyValueEntry.key).Nodup) (hkv : kv ∈ keys) (hwrite : kv.type = .write)
    (hlocal : isLocal kv.key = true) :
    (withNewValues newValue keys).foldl (Transaction.applyWrite isLocal) storage kv.key =
      some { kv with newValue := newValue kv }.newRecord := by
  have hmem : { kv with newValue := newValue kv } ∈ withNewValues newValue keys :=
    List.mem_map_of_mem hkv
  refine foldl_applyWrite_self ?_ hmem hlocal hwrite
  simpa [withNewValues, Function.comp_def] using hnodup

end Loop

/-! ## Programs follow their semantics -/

/-- What goes to the storage is right exactly when no written key is deleted at last, and a written key
that is not touched has the record that is written anyway. -/
theorem follows_iff {isLocal : Key → Bool} {keys : List KeyValueEntry} {storage : Storage}
    {ps : List Procedure} (hnodup : (keys.map KeyValueEntry.key).Nodup) :
    Follows isLocal keys ps storage ((withNewValues (writeAll keys storage ps
        KeyValueEntry.newValue) keys).foldl (Transaction.applyWrite isLocal) storage) ↔
      ∀ kv ∈ keys, kv.type = .write → isLocal kv.key = true →
        lastEffect keys storage kv.key ps ≠ some none ∧
        (lastEffect keys storage kv.key ps = none → storage kv.key = some kv.newRecord) := by
  have hrecord {kv : KeyValueEntry} (hwrite : kv.type = .write)
      (hlast : lastWrite keys storage kv.key ps = none) :
      { kv with newValue := writeAll keys storage ps KeyValueEntry.newValue kv }.newRecord =
        kv.newRecord := by
    rw [writeAll, if_pos hwrite, hlast]
    rfl
  constructor
  · intro h kv hkv hwrite hlocal
    have heq := applyWrites_eq storage (writeAll keys storage ps KeyValueEntry.newValue) hnodup hkv
      hwrite hlocal
    refine ⟨fun hdel => ?_, fun hnone => ?_⟩
    · rw [h.deleted kv hkv hwrite hlocal hdel] at heq
      exact absurd heq (by simp)
    · rw [← h.untouched kv hkv hwrite hlocal hnone, heq,
        hrecord hwrite (lastWrite_of_lastEffect hnone (by simp))]
  · intro h
    refine ⟨fun kv hkv hwrite hlocal value hlast => ?_, fun kv hkv hwrite hlocal hdel => ?_,
      fun kv hkv hwrite hlocal hnone => ?_, fun key hkey => ?_⟩
    · have hlast := lastWrite_of_lastEffect hlast (by simp)
      rw [applyWrites_eq storage _ hnodup hkv hwrite hlocal, Option.map_some]
      simp [KeyValueEntry.newRecord, writeAll, hwrite, hlast]
    · exact absurd hdel (h kv hkv hwrite hlocal).1
    · rw [applyWrites_eq storage _ hnodup hkv hwrite hlocal,
        hrecord hwrite (lastWrite_of_lastEffect hnone (by simp)),
        (h kv hkv hwrite hlocal).2 hnone]
    · refine foldl_applyWrite_other fun kv hkv heq => ?_
      obtain ⟨kv', hkv', rfl⟩ := List.mem_map.mp hkv
      exact hkey kv' hkv' heq

section Execute

variable (isLocal : Key → Bool) {t : Transaction} {ps : List Procedure} {storage : Storage}
  (hnodup : (t.keys.map KeyValueEntry.key).Nodup)
  (hread : ∀ kv ∈ t.keys, kv.value = storedValue storage kv.key)

include hnodup hread

/-- The two ways in which a program ends. -/
theorem execute_of_defined (hdeleted : t.deletedKeys = []) (hps : ∀ p ∈ ps, Defined t.keys p) :
    ∃ t' storage', execute isLocal t (ps.map Procedure.args) storage = some (t', storage') ∧
      (EqsHold t.keys storage ps ∧ t'.status = .committed ∧
        storage' = (withNewValues (writeAll t.keys storage ps KeyValueEntry.newValue) t.keys).foldl
          (Transaction.applyWrite isLocal) storage ∨
      ¬ EqsHold t.keys storage ps ∧ t'.status = .aborted ∧ storage' = storage) := by
  have hkeys : ({ keys := t.keys } : State).keys = withNewValues KeyValueEntry.newValue t.keys := by
    simp [withNewValues]
  obtain ⟨s, hs, hnew, habort⟩ := (foldlM_executeProcedure hnodup hread hkeys).1 hps
  have habort : s.aborted = true ↔ ¬ EqsHold t.keys storage ps := by simpa using habort
  rw [execute, hs, Option.map_some]
  by_cases haborted : s.aborted = true
  · simp only [if_pos haborted]
    exact ⟨_, _, rfl, .inr ⟨habort.mp haborted, rfl, rfl⟩⟩
  · simp only [if_neg haborted]
    refine ⟨_, _, rfl, .inl ⟨not_not.mp (mt habort.mpr haborted), rfl, ?_⟩⟩
    simp only [Transaction.applyWrites, hdeleted, hnew, List.foldl_nil]

theorem execute_of_not_defined (hps : ∃ p ∈ ps, ¬ Defined t.keys p) :
    execute isLocal t (ps.map Procedure.args) storage = none := by
  have hkeys : ({ keys := t.keys } : State).keys = withNewValues KeyValueEntry.newValue t.keys := by
    simp [withNewValues]
  rw [execute, (foldlM_executeProcedure hnodup hread hkeys).2 hps, Option.map_none]

end Execute

/-- A program that runs to its end commits exactly if its comparisons hold, and then follows the
reference semantics; otherwise it changes nothing. -/
def Correct (isLocal : Key → Bool) (t : Transaction) (ps : List Procedure) (storage : Storage) :
    Prop :=
  ∃ t' storage', execute isLocal t (ps.map Procedure.args) storage = some (t', storage') ∧
    (t'.status = .committed ↔ EqsHold t.keys storage ps) ∧
    (t'.status = .committed → Follows isLocal t.keys ps storage storage') ∧
    (t'.status ≠ .committed → storage' = storage)

/-- **A key-value program follows its semantics** if and only if it deletes no undeclared key, and no
written key without setting it again, and touches every written key of the partition, but for those
whose record is the one that is written anyway. -/
theorem correct_iff (isLocal : Key → Bool) (t : Transaction) (ps : List Procedure)
    (storage : Storage) (hnodup : (t.keys.map KeyValueEntry.key).Nodup)
    (hread : ∀ kv ∈ t.keys, kv.value = storedValue storage kv.key) (hdeleted : t.deletedKeys = []) :
    Correct isLocal t ps storage ↔
      (∀ p ∈ ps, Defined t.keys p) ∧
      (EqsHold t.keys storage ps → ∀ kv ∈ t.keys, kv.type = .write → isLocal kv.key = true →
        lastEffect t.keys storage kv.key ps ≠ some none ∧
        (lastEffect t.keys storage kv.key ps = none → storage kv.key = some kv.newRecord)) := by
  by_cases hps : ∀ p ∈ ps, Defined t.keys p
  · rw [and_iff_right hps, ← follows_iff hnodup, Correct]
    obtain ⟨t', storage', hexec, ⟨heqs, hstatus, hstorage⟩ | ⟨heqs, hstatus, hstorage⟩⟩ :=
      execute_of_defined isLocal hnodup hread hdeleted hps
    · simp only [hexec, Option.some.injEq, Prod.mk.injEq]
      constructor
      · rintro ⟨_, _, ⟨rfl, rfl⟩, -, hfollows, -⟩ -
        exact hstorage ▸ hfollows hstatus
      · intro hfollows
        exact ⟨t', storage', ⟨rfl, rfl⟩, by simp [hstatus, heqs], fun _ => hstorage ▸ hfollows heqs,
          fun hnot => absurd hstatus hnot⟩
    · refine iff_of_true ⟨t', storage', hexec, ?_, ?_, fun _ => hstorage⟩ fun h => absurd h heqs
      · simp [hstatus, heqs]
      · simp [hstatus]
  · refine iff_of_false ?_ fun h => hps h.1
    rintro ⟨t', storage', hexec, -⟩
    rw [execute_of_not_defined isLocal hnodup hread (by simpa using hps)] at hexec
    exact absurd hexec (by simp)

/-- Two keys, one of which is read and one is written. -/
def twoKeys : Transaction where
  internal := { id := 1 }
  keys := [{ key := "a", type := .read, value := "1" }, { key := "b", type := .write, value := "2" }]

/-- The records of the two keys. -/
def twoRecords : Storage := fun key =>
  if key = "a" then some { value := "1" } else if key = "b" then some { value := "2" } else none

theorem twoKeys_read : ∀ kv ∈ twoKeys.keys, kv.value = storedValue twoRecords kv.key := by decide

/-- A program that sets the written key after it has deleted it is right. -/
theorem correct_set_after_del :
    Correct (fun _ => true) twoKeys [.eq "a" "1", .del "b", .set "b" "3"] twoRecords :=
  (correct_iff _ twoKeys _ twoRecords (by decide) twoKeys_read rfl).mpr ⟨by
    intro p hp
    fin_cases hp
    · trivial
    · exact ⟨_, .tail _ (.head _), rfl⟩
    · trivial, by
    intro _ kv hkv hwrite _
    fin_cases hkv
    · exact absurd hwrite (by decide)
    · exact ⟨by decide, by decide⟩⟩

/-- **A deleted key stays, and a written key that is not touched loses its value.**  With an undeclared
key, the deletion reads an entry that does not exist. -/
theorem not_correct :
    (twoKeys.keys.map KeyValueEntry.key).Nodup ∧
    (∀ kv ∈ twoKeys.keys, kv.value = storedValue twoRecords kv.key) ∧ twoKeys.deletedKeys = [] ∧
    ¬ Correct (fun _ => true) twoKeys [.del "b"] twoRecords ∧
    ¬ Correct (fun _ => true) twoKeys [.eq "a" "1"] twoRecords ∧
    ¬ Correct (fun _ => true) twoKeys [.del "c"] twoRecords := by
  have hmem : { key := "b", type := .write, value := "2" } ∈ twoKeys.keys := .tail _ (.head _)
  have hempties (ps : List Procedure)
      (hrun : (execute (fun _ => true) twoKeys (ps.map Procedure.args) twoRecords).map
        (fun r => (r.1.status, r.2 "b")) = some (.committed, some {}))
      (hlast : lastEffect twoKeys.keys twoRecords "b" ps = some none ∨
        lastEffect twoKeys.keys twoRecords "b" ps = none) :
      ¬ Correct (fun _ => true) twoKeys ps twoRecords := by
    rintro ⟨t', storage', hexec, -, hfollows, -⟩
    simp only [hexec, Option.map_some, Option.some.injEq, Prod.mk.injEq] at hrun
    have hfollows := hfollows hrun.1
    rcases hlast with hdel | hnone
    · have := hfollows.deleted _ hmem rfl rfl hdel
      exact absurd (this.symm.trans hrun.2) (by decide)
    · have := hfollows.untouched _ hmem rfl rfl hnone
      exact absurd (this.symm.trans hrun.2) (by decide)
  refine ⟨by decide, twoKeys_read, rfl, hempties _ (by decide +kernel) (.inl (by decide)),
    hempties _ (by decide +kernel) (.inr (by decide)), ?_⟩
  rintro ⟨t', storage', hexec, -⟩
  have hnone : (execute (fun _ => true) twoKeys [["DEL", "c"]] twoRecords).isSome = false := by
    decide +kernel
  rw [show [["DEL", "c"]] = [Procedure.del "c"].map Procedure.args from rfl, hexec] at hnone
  exact absurd hnone (by simp)

end KeyValueExecution

end Slog
