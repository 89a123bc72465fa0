/-
Cells live and die with their image.

A session is a loader with any number of tables of cells against it.  What it answers is told by its
history: which generation a table first allocated in, which of its keys have been given cells, and
what each key was last bound to.  The tables share nothing but the loader, whose generation says
which of them are still of use: cells of the generation at hand have numbers of their own, and none
of another generation is ever touched (`Session.Tracks`).

* `Session.Tracks.step`: one more request;
* `Session.tracks_run`: any number of them;
* `Session.obeys_run`: what a session answers after any history.
-/
import MutationAnalysis.Proofs.Image.Cells

namespace MutationAnalysis

open Wasm

/-! ### Loading and releasing -/

namespace Loader

/-- The store goes on to the loader after: no image was released, and no cell was changed. -/
def Continues (l l' : Loader) : Prop := l'.generation = l.generation ∧ l'.cells = l.cells

variable {l l' : Loader} {objects : List Object} {resolve : Resolver}

theorem generation_unload (l : Loader) : l.unload.generation = l.generation + 1 := rfl

/-- A load that fails releases everything, whatever was loaded before. -/
theorem released_of_load_error {e : Error} (h : l.load objects resolve = (l', .error e)) :
    l'.image = none ∧ l.generation < l'.generation := by
  rw [load] at h
  dsimp only at h
  split at h
  · cases (Prod.mk.inj h).2
  · obtain ⟨rfl, -⟩ := Prod.mk.inj h
    refine ⟨rfl, ?_⟩
    split <;> simp only [generation_unload] <;> omega

/-- A load that succeeds keeps the store only if no image has to make room. -/
theorem continues_or_lt_of_load (h : l.load objects resolve = (l', .ok ())) :
    l.Continues l' ∨ l.generation < l'.generation := by
  rw [load] at h
  dsimp only at h
  split at h
  · obtain ⟨rfl, -⟩ := Prod.mk.inj h
    cases l.image with
    | none => exact .inl ⟨rfl, rfl⟩
    | some image => exact .inr (Nat.lt_succ_self _)
  · cases (Prod.mk.inj h).2

end Loader

/-! ### Tables -/

namespace Trampolines

variable {s s' s'' : Trampolines × Loader} {t t' : Trampolines} {l l' : Loader} {key : String}
  {keys : List String}

/-- Cells were added to a table and its loader: new keys have new cells, which hold zero. -/
structure Grows (s s' : Trampolines × Loader) : Prop where
  generation : s'.1.generation = s.1.generation
  loader : s'.2 = { s.2 with cells := s'.2.cells }
  size_le : s.2.cells.size ≤ s'.2.cells.size
  kept : ∀ (i : Nat) w, s.2.cells[i]? = some w → s'.2.cells[i]? = some w
  old : ∀ key i, s.1.cells.lookup key = some i → s'.1.cells.lookup key = some i
  new : ∀ key i, s.1.cells.lookup key = none → s'.1.cells.lookup key = some i →
    s.2.cells.size ≤ i ∧ s'.2.cells[i]? = some 0

theorem Grows.refl (s : Trampolines × Loader) : Grows s s :=
  ⟨rfl, rfl, Nat.le_refl _, fun _ _ h => h, fun _ _ h => h, fun _ _ h h' => by
    rw [h] at h'
    cases h'⟩

theorem Grows.trans (h : Grows s s') (h' : Grows s' s'') : Grows s s'' where
  generation := h'.generation.trans h.generation
  loader := by rw [h'.loader, h.loader]
  size_le := Nat.le_trans h.size_le h'.size_le
  kept i w hw := h'.kept i w (h.kept i w hw)
  old key i hi := h'.old key i (h.old key i hi)
  new key i hnone hi := by
    cases hmid : s'.1.cells.lookup key with
    | none =>
      obtain ⟨hle, hzero⟩ := h'.new key i hmid hi
      exact ⟨Nat.le_trans h.size_le hle, hzero⟩
    | some j =>
      obtain rfl := Option.some.inj ((h'.old key j hmid).symm.trans hi)
      obtain ⟨hle, hzero⟩ := h.new key j hnone hmid
      exact ⟨hle, h'.kept j 0 hzero⟩

theorem grows_allocateKey (t : Trampolines) (l : Loader) (key : String) :
    Grows (t, l) (allocateKey (t, l) key) := by
  rw [allocateKey]
  split
  · exact .refl _
  · rename_i hnone
    rw [Option.not_isSome_iff_eq_none] at hnone
    have hlookup := fun key' => lookup_insert key key' l.cells.size hnone
    -- what is there stays, and a new key gets the cell after all others
    refine ⟨rfl, rfl, by simp, fun i w hw => ?_, fun key' i hi => ?_, fun key' i hold hi => ?_⟩
    · obtain ⟨hlt, -⟩ := Array.getElem?_eq_some_iff.mp hw
      show (l.cells.push 0)[i]? = _
      rw [Array.getElem?_push_lt hlt, ← hw, Array.getElem?_eq_getElem hlt]
    · show List.lookup key' (insert key l.cells.size t.cells) = _
      rw [hlookup, if_neg, hi]
      rintro rfl
      rw [hnone] at hi
      cases hi
    · replace hi : List.lookup key' (insert key l.cells.size t.cells) = some i := hi
      rw [hlookup] at hi
      split at hi
      · obtain rfl := Option.some.inj hi
        exact ⟨Nat.le_refl _, by simp⟩
      · replace hold : t.cells.lookup key' = none := hold
        rw [hold] at hi
        cases hi

theorem grows_foldl_allocateKey (keys : List String) (s : Trampolines × Loader) :
    Grows s (keys.foldl allocateKey s) := by
  induction keys generalizing s with
  | nil => exact .refl s
  | cons key rest ih => exact (grows_allocateKey s.1 s.2 key).trans (ih _)

theorem requireLive_eq_ok : t.requireLive l = .ok () ↔
    ∀ g, t.generation = some g → g = l.generation := by
  rw [requireLive]
  cases t.generation with
  | none => simp
  | some g =>
    dsimp only
    split <;> rename_i hg <;> simp [hg]

/-- Allocating adds cells for keys that have none, in the generation at hand. -/
theorem allocate_eq_ok : t.allocate l keys = .ok (t', l') ↔ t.requireLive l = .ok () ∧
    (t', l') = keys.foldl allocateKey ({ t with generation := some l.generation }, l) := by
  rw [allocate, bind_unit_eq_ok]
  exact and_congr_right fun _ =>
    ⟨fun h => (Except.ok.inj h).symm, fun h => congrArg Except.ok h.symm⟩

theorem grows_of_allocate (h : t.allocate l keys = .ok (t', l')) :
    Grows ({ t with generation := some l.generation }, l) (t', l') := by
  rw [(allocate_eq_ok.mp h).2]
  exact grows_foldl_allocateKey keys _

theorem generation_of_allocate (h : t.allocate l keys = .ok (t', l')) :
    l'.generation = l.generation := by
  have hloader : l' = { l with cells := l'.cells } := (grows_of_allocate h).loader
  rw [hloader]

/-- Allocating for a table whose cells are numbered numbers its new cells, too. -/
theorem numbers_allocate (hnumbers : t.Numbers l.cells.size)
    (h : t.allocate l keys = .ok (t', l')) :
    t'.Numbers l'.cells.size ∧ t'.generation = some l.generation ∧
      ∀ key, (t'.cells.lookup key).isSome ↔ (t.cells.lookup key).isSome ∨ key ∈ keys := by
  obtain ⟨hnumbers', hgeneration, -, hkeys⟩ := numbers_foldl_allocateKey keys
    ({ t with generation := some l.generation }, l) ⟨hnumbers.lt, hnumbers.injective⟩
  rw [← (allocate_eq_ok.mp h).2] at hnumbers' hgeneration hkeys
  exact ⟨hnumbers', hgeneration, hkeys⟩

theorem value_eq_ok {a : Nat} : t.value l key = .ok a ↔ ∃ i, t.cells.lookup key = some i ∧
    t.requireLive l = .ok () ∧ a = (l.cells.getD i 0).toNat := by
  rw [value, bind_eq_ok]
  refine exists_congr fun i => and_congr cell_eq_ok ?_
  rw [bind_unit_eq_ok]
  exact and_congr_right fun _ =>
    ⟨fun h => (Except.ok.inj h).symm, fun h => congrArg Except.ok h.symm⟩

end Trampolines

/-! ### Sessions -/

/-- A loader, and tables of cells against it, each under a number. -/
structure Session where
  loader : Loader
  tables : Nat → Trampolines

namespace Session

/-- What is asked of the loader or of a table. -/
inductive Request where
  | load (objects : List Object) (resolve : Resolver)
  | unload
  | allocate (table : Nat) (keys : List String)
  | bind (table : Nat) (key : String) (address : Nat)
  | value (table : Nat) (key : String)

inductive Answer where
  | done
  | address (a : Nat)
  | refused (e : Error)
  deriving Repr, DecidableEq

/-- A request that was answered, with the generation in which it was asked. -/
structure Event where
  generation : Nat
  request : Request
  answer : Answer

/-- A new loader, and new tables. -/
def start (config : LoaderConfig) : Session := ⟨.new config, fun _ => .empty⟩

def setTable (s : Session) (table : Nat) (t : Trampolines) : Nat → Trampolines :=
  fun n => if n = table then t else s.tables n

/-- Answers one request. -/
def step (s : Session) : Request → Session × Answer
  | .load objects resolve =>
    match s.loader.load objects resolve with
    | (l, .ok ()) => ({ s with loader := l }, .done)
    | (l, .error e) => ({ s with loader := l }, .refused e)
  | .unload => ({ s with loader := s.loader.unload }, .done)
  | .allocate table keys =>
    match (s.tables table).allocate s.loader keys with
    | .ok (t, l) => (⟨l, s.setTable table t⟩, .done)
    | .error e => (s, .refused e)
  | .bind table key address =>
    match (s.tables table).bind s.loader key address with
    | .ok l => ({ s with loader := l }, .done)
    | .error e => (s, .refused e)
  | .value table key =>
    match (s.tables table).value s.loader key with
    | .ok address => (s, .address address)
    | .error e => (s, .refused e)

/-- Answers requests one after the other; gives what was asked and answered, the first first. -/
def run (s : Session) : List Request → List Event × Session
  | [] => ([], s)
  | r :: rest =>
    let (next, answer) := s.step r
    let (events, last) := next.run rest
    (⟨s.loader.generation, r, answer⟩ :: events, last)

/-! ### What a history says -/

/-- The generation in which an event allocates for a table. -/
def Event.birth? (table : Nat) (e : Event) : Option Nat :=
  match e.request, e.answer with
  | .allocate n _, .done => if n = table then some e.generation else none
  | _, _ => none

/-- The event gave a key of a table a cell, unless it had one. -/
def Event.Allocates (table : Nat) (key : String) (e : Event) : Prop :=
  e.answer = .done ∧ ∃ keys, e.request = .allocate table keys ∧ key ∈ keys

/-- The address that an event bound a key of a table to. -/
def Event.bound? (table : Nat) (key : String) (e : Event) : Option Nat :=
  match e.request, e.answer with
  | .bind n k address, .done => if n = table ∧ k = key then some address else none
  | _, _ => none

/-- The generation in which a table allocated first. -/
def birth? (table : Nat) (history : List Event) : Option Nat :=
  history.findSome? (Event.birth? table)

/-- A key of a table has been given a cell. -/
def Allocated (table : Nat) (key : String) (history : List Event) : Prop :=
  ∃ e ∈ history, e.Allocates table key

/-- The address that a key of a table was last bound to, and zero if it was not bound. -/
def lastBound (table : Nat) (key : String) (history : List Event) : Nat :=
  (history.reverse.findSome? (Event.bound? table key)).getD 0

/-- The refusal of a table whose image is released. -/
def releasedError : Error := ⟨.invalidState, "trampoline cells belong to a released image"⟩

/-- The refusal of a key that has no cell. -/
def unknownError (key : String) : Error := ⟨.unknownSymbol, key⟩

/-- What a session answers next, told by its history. -/
structure Obeys (s : Session) (history : List Event) : Prop where
  /-- A load that fails leaves no image, and a generation that never was before. -/
  failed_load : ∀ objects resolve s' e, s.step (.load objects resolve) = (s', .refused e) →
    s'.loader.image = none ∧ s.loader.generation < s'.loader.generation ∧
      ∀ event ∈ history, event.generation < s'.loader.generation
  /-- A key that was never given a cell is unknown. -/
  unknown : ∀ table key, ¬ Allocated table key history →
    s.step (.value table key) = (s, .refused (unknownError key)) ∧
    ∀ address, s.step (.bind table key address) = (s, .refused (unknownError key))
  /-- A table that allocated first in an earlier generation is of no more use. -/
  released : ∀ table g, birth? table history = some g → g ≠ s.loader.generation →
    (∀ keys, s.step (.allocate table keys) = (s, .refused releasedError)) ∧
    ∀ key, Allocated table key history →
      s.step (.value table key) = (s, .refused releasedError) ∧
      ∀ address, s.step (.bind table key address) = (s, .refused releasedError)
  /-- A cell holds what it was last bound to. -/
  value : ∀ table, birth? table history = some s.loader.generation → ∀ key,
    Allocated table key history →
    s.step (.value table key) = (s, .address (lastBound table key history))
  /-- A cell can be bound to any address of 32 bits, which it then holds; all others stay. -/
  bind : ∀ table, birth? table history = some s.loader.generation → ∀ key,
    Allocated table key history → ∀ address < 2 ^ 32, ∃ s',
      s.step (.bind table key address) = (s', .done) ∧
      s'.step (.value table key) = (s', .address address) ∧
      ∀ table' key', (table', key') ≠ (table, key) →
        (s'.step (.value table' key')).2 = (s.step (.value table' key')).2
  /-- A table that is new or of the generation at hand can allocate, and every cell that
  is there keeps what it holds. -/
  allocate : ∀ table, (∀ g, birth? table history = some g → g = s.loader.generation) →
    ∀ keys, ∃ s', s.step (.allocate table keys) = (s', .done) ∧
      ∀ table' key, Allocated table' key history →
        (s'.step (.value table' key)).2 = (s.step (.value table' key)).2

/-! ### The invariant -/

section

variable {s : Session} {history : List Event} {e : Event} {table : Nat} {key : String}

theorem birth?_concat : birth? table (history ++ [e]) = (birth? table history).or
    (e.birth? table) := by
  rw [birth?, List.findSome?_append, List.findSome?_singleton]
  rfl

theorem allocated_concat :
    Allocated table key (history ++ [e]) ↔ Allocated table key history ∨ e.Allocates table key := by
  simp only [Allocated, List.mem_append, List.mem_singleton, or_and_right, exists_or,
    exists_eq_left]

theorem lastBound_concat : lastBound table key (history ++ [e])
    = (e.bound? table key).getD (lastBound table key history) := by
  rw [lastBound, List.reverse_concat, List.findSome?_cons]
  cases e.bound? table key <;> rfl

theorem lastBound_bind {g address n : Nat} {key' : String} :
    lastBound n key' (history ++ [⟨g, .bind table key address, .done⟩])
      = if table = n ∧ key = key' then address else lastBound n key' history := by
  rw [lastBound_concat]
  show (if table = n ∧ key = key' then some address else none).getD _ = _
  split <;> rfl

theorem birth?_allocate {g n : Nat} {keys : List String} :
    birth? n (history ++ [⟨g, .allocate table keys, .done⟩])
      = (birth? n history).or (if table = n then some g else none) := birth?_concat

theorem allocated_allocate {g n : Nat} {keys : List String} :
    Allocated n key (history ++ [⟨g, .allocate table keys, .done⟩]) ↔
      Allocated n key history ∨ (n = table ∧ key ∈ keys) := by
  refine allocated_concat.trans (or_congr_right ?_)
  constructor
  · rintro ⟨-, keys', hrequest, hkey⟩
    cases hrequest
    exact ⟨rfl, hkey⟩
  · rintro ⟨rfl, hkey⟩
    exact ⟨rfl, keys, rfl, hkey⟩

/-- An event other than an allocation gives no cells. -/
theorem allocated_concat_of_ne (h : ∀ n keys, e.request ≠ .allocate n keys ∨ e.answer ≠ .done) :
    Allocated table key (history ++ [e]) ↔ Allocated table key history := by
  refine allocated_concat.trans (or_iff_left ?_)
  rintro ⟨hanswer, keys, hrequest, -⟩
  exact (h table keys).elim (· hrequest) (· hanswer)

/-- A table allocated first when some event allocated for it. -/
theorem exists_of_birth? {g : Nat} (h : birth? table history = some g) :
    ∃ e ∈ history, e.generation = g := by
  obtain ⟨e, he, hbirth⟩ := List.exists_of_findSome?_eq_some h
  refine ⟨e, he, ?_⟩
  rw [Event.birth?] at hbirth
  split at hbirth
  · split at hbirth
    · exact Option.some.inj hbirth
    · cases hbirth
  · cases hbirth

/-- A key that has a cell is one of a table that has allocated. -/
theorem Allocated.exists_birth (h : Allocated table key history) :
    ∃ g, birth? table history = some g := by
  obtain ⟨e, he, hanswer, keys, hrequest, -⟩ := h
  refine Option.isSome_iff_exists.mp (List.findSome?_isSome_iff.mpr ⟨e, he, ?_⟩)
  rw [Event.birth?, hrequest, hanswer]
  simp

/-- The table's cells are of the generation at hand. -/
def IsLive (s : Session) (table : Nat) : Prop :=
  (s.tables table).generation = some s.loader.generation

/-- The state of a session is what its history says. -/
structure Tracks (s : Session) (history : List Event) : Prop where
  past : ∀ e ∈ history, e.generation ≤ s.loader.generation
  birth : ∀ n, (s.tables n).generation = birth? n history
  allocated : ∀ n key, ((s.tables n).cells.lookup key).isSome ↔ Allocated n key history
  numbers : ∀ n, s.IsLive n → (s.tables n).Numbers s.loader.cells.size
  /-- Tables do not share cells. -/
  apart : ∀ n m, s.IsLive n → s.IsLive m → ∀ key key' i, (s.tables n).cells.lookup key = some i →
    (s.tables m).cells.lookup key' = some i → n = m
  holds : ∀ n, s.IsLive n → ∀ key i, (s.tables n).cells.lookup key = some i →
    s.loader.cells[i]? = some (UInt32.ofNat (lastBound n key history))
  unbound : ∀ n key, ¬ Allocated n key history → lastBound n key history = 0
  bound_lt : ∀ n key, lastBound n key history < UInt32.size

theorem tracks_start (config : LoaderConfig) : (start config).Tracks [] where
  past := by simp
  birth _ := rfl
  allocated n key := iff_of_false (by simp [start, Trampolines.empty]) (by simp [Allocated])
  numbers _ h := by cases h
  apart _ _ h := by cases h
  holds _ h := by cases h
  unbound _ _ _ := rfl
  bound_lt _ _ := show 0 < UInt32.size by decide

namespace Tracks

variable (h : s.Tracks history)

include h

theorem birth_le {g : Nat} (hg : (s.tables table).generation = some g) :
    g ≤ s.loader.generation := by
  rw [h.birth] at hg
  obtain ⟨e, he, rfl⟩ := exists_of_birth? hg
  exact h.past e he

/-- A table that is not released is live once it has a cell. -/
theorem isLive (hlive : (s.tables table).requireLive s.loader = .ok ())
    (hkey : Allocated table key history) : s.IsLive table := by
  obtain ⟨g, hg⟩ := hkey.exists_birth
  have hgeneration := (h.birth table).trans hg
  rw [IsLive, hgeneration, Trampolines.requireLive_eq_ok.mp hlive g hgeneration]

/-- The cells of a table that is not released are numbered. -/
theorem numbers_of_requireLive (hlive : (s.tables table).requireLive s.loader = .ok ()) :
    (s.tables table).Numbers s.loader.cells.size := by
  have hall : ∀ key i, (s.tables table).cells.lookup key = some i → s.IsLive table :=
    fun key i hi =>
    h.isLive hlive ((h.allocated table key).mp (by rw [hi]; rfl))
  exact ⟨fun key i hi => (h.numbers table (hall key i hi)).lt key i hi,
    fun key key' i hi => (h.numbers table (hall key i hi)).injective key key' i hi⟩

theorem past_concat {g : Nat} (hg : s.loader.generation ≤ g)
    (hgeneration : e.generation = s.loader.generation) :
    ∀ e' ∈ history ++ [e], e'.generation ≤ g := by
  intro e' he'
  rcases List.mem_append.mp he' with he' | he'
  · exact Nat.le_trans (h.past e' he') hg
  · obtain rfl := List.mem_singleton.mp he'
    exact hgeneration ▸ hg

/-- An event that neither gives nor binds a cell. -/
theorem silent {l : Loader} (hloader : s.loader.Continues l ∨ s.loader.generation < l.generation)
    (hgeneration : e.generation = s.loader.generation)
    (hbirth : ∀ n, e.birth? n = none)
    (hallocates : ∀ n keys, e.request ≠ .allocate n keys ∨ e.answer ≠ .done)
    (hbound : ∀ n key, e.bound? n key = none) :
    Tracks { s with loader := l } (history ++ [e]) := by
  have hle : s.loader.generation ≤ l.generation := by
    rcases hloader with hsame | hlt
    · exact Nat.le_of_eq hsame.1.symm
    · exact Nat.le_of_lt hlt
  have hlast : ∀ n key, lastBound n key (history ++ [e]) = lastBound n key history := by
    intro n key
    rw [lastBound_concat, hbound]
    rfl
  have hcells : ∀ n key, Allocated n key (history ++ [e]) ↔ Allocated n key history :=
    fun n key => allocated_concat_of_ne hallocates
  -- a table is live only if no image was released, and then all is as it was
  have hlive : ∀ n, IsLive { s with loader := l } n → s.IsLive n ∧ l.cells = s.loader.cells := by
    intro n hn
    rcases hloader with hsame | hlt
    · exact ⟨(hn.trans (congrArg some hsame.1)), hsame.2⟩
    · exact absurd (h.birth_le hn) (Nat.not_le.mpr hlt)
  refine ⟨h.past_concat hle hgeneration, fun n => ?_,
    fun n key => (h.allocated n key).trans (hcells n key).symm, fun n hn => ?_,
    fun n m hn hm => h.apart n m (hlive n hn).1 (hlive m hm).1, fun n hn key i hi => ?_,
    fun n key hnot => ?_, fun n key => ?_⟩
  · rw [birth?_concat, hbirth, Option.or_none]
    exact h.birth n
  · obtain ⟨hn, hcells⟩ := hlive n hn
    show (s.tables n).Numbers l.cells.size
    rw [hcells]
    exact h.numbers n hn
  · obtain ⟨hn, hcells⟩ := hlive n hn
    show l.cells[i]? = _
    rw [hcells, hlast]
    exact h.holds n hn key i hi
  · rw [hlast]
    exact h.unbound n key fun hkey => hnot ((hcells n key).mpr hkey)
  · rw [hlast]
    exact h.bound_lt n key

section

variable {keys : List String} {t : Trampolines} {l : Loader}
  (hallocate : (s.tables table).allocate s.loader keys = .ok (t, l))

include hallocate

/-- A cell of a table that allocates is one that it had, or it comes after all that there were. -/
theorem lookup_of_allocate {i : Nat} (hi : t.cells.lookup key = some i) :
    ((s.tables table).cells.lookup key = some i ∧ s.IsLive table) ∨
      ((s.tables table).cells.lookup key = none ∧ s.loader.cells.size ≤ i ∧
        l.cells[i]? = some 0) := by
  have hgrows := Trampolines.grows_of_allocate hallocate
  obtain ⟨hlive, -⟩ := Trampolines.allocate_eq_ok.mp hallocate
  cases hold : (s.tables table).cells.lookup key with
  | none => exact .inr ⟨rfl, hgrows.new key i hold hi⟩
  | some j =>
    obtain rfl := Option.some.inj ((hgrows.old key j hold).symm.trans hi)
    exact .inl ⟨rfl, h.isLive hlive ((h.allocated table key).mp (by rw [hold]; rfl))⟩

/-- So it shares no cell with another table. -/
theorem lookup_ne_of_allocate {n i : Nat} {key' : String} (hne : n ≠ table) (hn : s.IsLive n)
    (hi : (s.tables n).cells.lookup key = some i) : t.cells.lookup key' ≠ some i := by
  intro hi'
  rcases h.lookup_of_allocate hallocate hi' with ⟨hold, hlive⟩ | ⟨-, hle, -⟩
  · exact hne (h.apart n table hn hlive key key' i hi hold)
  · exact absurd ((h.numbers n hn).lt key i hi) (Nat.not_lt.mpr hle)

/-- A cell that is new holds zero, which is what a key is bound to before it is bound. -/
theorem holds_of_allocate {i : Nat} (hi : t.cells.lookup key = some i) :
    l.cells[i]? = some (UInt32.ofNat (lastBound table key history)) := by
  rcases h.lookup_of_allocate hallocate hi with ⟨hold, hlive⟩ | ⟨hnone, -, hzero⟩
  · exact (Trampolines.grows_of_allocate hallocate).kept i _ (h.holds table hlive key i hold)
  · have hnot : ¬ Allocated table key history := by
      rw [← h.allocated, hnone]
      exact Bool.false_ne_true
    rw [hzero, h.unbound table key hnot]
    rfl

/-- Giving keys of a table cells. -/
theorem allocate : Tracks ⟨l, s.setTable table t⟩
    (history ++ [⟨s.loader.generation, .allocate table keys, .done⟩]) := by
  obtain ⟨hlive, -⟩ := Trampolines.allocate_eq_ok.mp hallocate
  have hgrows := Trampolines.grows_of_allocate hallocate
  obtain ⟨hnumbers, hgeneration, hkeys⟩ :=
    Trampolines.numbers_allocate (h.numbers_of_requireLive hlive) hallocate
  have hl := Trampolines.generation_of_allocate hallocate
  have hself : s.setTable table t table = t := if_pos rfl
  have hother : ∀ n, n ≠ table → s.setTable table t n = s.tables n := fun n hn => if_neg hn
  have hothers : ∀ n, n ≠ table → IsLive ⟨l, s.setTable table t⟩ n → s.IsLive n := by
    intro n hne hn
    rw [IsLive] at hn ⊢
    rw [← hl, ← hn]
    exact congrArg _ (hother n hne).symm
  have hlast : ∀ n key, lastBound n key (history ++
      [⟨s.loader.generation, .allocate table keys, .done⟩]) = lastBound n key history :=
    fun n key => lastBound_concat
  -- each fact is one about the table, and stays what it was for the others
  refine ⟨h.past_concat (Nat.le_of_eq hl.symm) rfl, fun n => ?_, fun n key => ?_, fun n hn => ?_,
    fun n m hn hm key key' i hi hi' => ?_, fun n hn key i hi => ?_, fun n key hnot => ?_,
    fun n key => ?_⟩
  · show (s.setTable table t n).generation = _
    rw [birth?_allocate, ← h.birth]
    by_cases hne : n = table
    · subst hne
      rw [hself, hgeneration, if_pos rfl]
      cases hg : (s.tables n).generation with
      | none => rfl
      | some g => exact congrArg some (Trampolines.requireLive_eq_ok.mp hlive g hg).symm
    · rw [hother n hne, if_neg (Ne.symm hne), Option.or_none]
  · show ((s.setTable table t n).cells.lookup key).isSome ↔ _
    rw [allocated_allocate, ← h.allocated]
    by_cases hne : n = table
    · subst hne
      rw [hself, hkeys, and_iff_right rfl]
    · rw [hother n hne]
      exact (or_iff_left fun hkey => hne hkey.1).symm
  · show (s.setTable table t n).Numbers l.cells.size
    by_cases hne : n = table
    · subst hne
      rwa [hself]
    · rw [hother n hne]
      have hold := h.numbers n (hothers n hne hn)
      exact ⟨fun key i hi => Nat.lt_of_lt_of_le (hold.lt key i hi) hgrows.size_le, hold.injective⟩
  · replace hi : (s.setTable table t n).cells.lookup key = some i := hi
    replace hi' : (s.setTable table t m).cells.lookup key' = some i := hi'
    by_cases hne : n = table <;> by_cases hme : m = table
    · exact hne.trans hme.symm
    · subst hne
      rw [hself] at hi
      rw [hother m hme] at hi'
      exact absurd hi (h.lookup_ne_of_allocate hallocate hme (hothers m hme hm) hi')
    · subst hme
      rw [hself] at hi'
      rw [hother n hne] at hi
      exact absurd hi' (h.lookup_ne_of_allocate hallocate hne (hothers n hne hn) hi)
    · rw [hother n hne] at hi
      rw [hother m hme] at hi'
      exact h.apart n m (hothers n hne hn) (hothers m hme hm) key key' i hi hi'
  · replace hi : (s.setTable table t n).cells.lookup key = some i := hi
    show l.cells[i]? = _
    rw [hlast]
    by_cases hne : n = table
    · subst hne
      rw [hself] at hi
      exact h.holds_of_allocate hallocate hi
    · rw [hother n hne] at hi
      exact hgrows.kept i _ (h.holds n (hothers n hne hn) key i hi)
  · rw [hlast]
    exact h.unbound n key fun hkey => hnot (allocated_allocate.mpr (.inl hkey))
  · rw [hlast]
    exact h.bound_lt n key

end

/-- Binding a key that has a cell. -/
theorem bind {address : Nat} {l : Loader}
    (hbind : (s.tables table).bind s.loader key address = .ok l) :
    Tracks { s with loader := l }
      (history ++ [⟨s.loader.generation, .bind table key address, .done⟩]) := by
  obtain ⟨i, hlookup, hlive, hlt, rfl⟩ := Trampolines.bind_iff.mp hbind
  have hkey : Allocated table key history := (h.allocated table key).mp (by rw [hlookup]; rfl)
  have hcells : ∀ n key', Allocated n key' (history ++
      [⟨s.loader.generation, .bind table key address, .done⟩]) ↔ Allocated n key' history :=
    fun n key' => allocated_concat_of_ne fun _ _ => .inl nofun
  refine ⟨h.past_concat (Nat.le_refl _) rfl, fun n => ?_,
    fun n key' => (h.allocated n key').trans (hcells n key').symm, fun n hn => ?_, h.apart,
    fun n hn key' j hj => ?_, fun n key' hnot => ?_, fun n key' => ?_⟩
  · exact (h.birth n).trans (birth?_concat.trans Option.or_none).symm
  · show (s.tables n).Numbers (s.loader.cells.setIfInBounds i (UInt32.ofNat address)).size
    rw [Array.size_setIfInBounds]
    exact h.numbers n hn
  · show (s.loader.cells.setIfInBounds i (UInt32.ofNat address))[j]? = _
    have hself := h.isLive hlive hkey
    rw [lastBound_bind]
    split
    · rename_i heq
      obtain ⟨rfl, rfl⟩ := heq
      obtain rfl := Option.some.inj (hlookup.symm.trans hj)
      exact Array.getElem?_setIfInBounds_self_of_lt ((h.numbers table hself).lt key i hlookup)
    · rename_i hne
      rw [Array.getElem?_setIfInBounds_ne, h.holds n hn key' j hj]
      -- another key with the same cell would be the same key of the same table
      rintro rfl
      obtain rfl := h.apart table n hself hn key key' i hlookup hj
      exact hne ⟨rfl, (h.numbers table hself).injective key key' i hlookup hj⟩
  · rw [lastBound_bind, if_neg, h.unbound n key' fun hold => hnot ((hcells n key').mpr hold)]
    rintro ⟨rfl, rfl⟩
    exact hnot ((hcells table key).mpr hkey)
  · rw [lastBound_bind]
    split
    · exact hlt
    · exact h.bound_lt n key'

/-- One more request. -/
theorem step (r : Request) :
    (s.step r).1.Tracks (history ++ [⟨s.loader.generation, r, (s.step r).2⟩]) := by
  have hsame : s.loader.Continues s.loader := ⟨rfl, rfl⟩
  -- a request that is refused or that only asks leaves no trace in the history
  cases r with
  | load objects resolve =>
    rw [Session.step]
    split
    · rename_i l hload
      exact h.silent (Loader.continues_or_lt_of_load hload) rfl (fun _ => rfl)
        (fun _ _ => .inl nofun) fun _ _ => rfl
    · rename_i l e hload
      exact h.silent (.inr (Loader.released_of_load_error hload).2) rfl (fun _ => rfl)
        (fun _ _ => .inl nofun) fun _ _ => rfl
  | unload =>
    exact h.silent (.inr (Nat.lt_succ_self _)) rfl (fun _ => rfl)
      (fun _ _ => .inl nofun) fun _ _ => rfl
  | allocate table keys =>
    rw [Session.step]
    split
    · rename_i t l hallocate
      exact h.allocate hallocate
    · exact h.silent (.inl hsame) rfl (fun _ => rfl) (fun _ _ => .inr nofun) fun _ _ => rfl
  | bind table key address =>
    rw [Session.step]
    split
    · rename_i l hbind
      exact h.bind hbind
    · exact h.silent (.inl hsame) rfl (fun _ => rfl) (fun _ _ => .inr nofun) fun _ _ => rfl
  | value table key =>
    rw [Session.step]
    split
    all_goals
      exact h.silent (.inl hsame) rfl (fun _ => rfl) (fun _ _ => .inl nofun) fun _ _ => rfl

end Tracks

/-- Any number of requests. -/
theorem tracks_run (h : s.Tracks history) (requests : List Request) :
    (s.run requests).2.Tracks (history ++ (s.run requests).1) := by
  induction requests generalizing s history with
  | nil => rwa [run, List.append_nil]
  | cons r rest ih =>
    have hrest := ih (h.step r)
    rw [List.append_assoc] at hrest
    exact hrest

/-! ### Answers -/

/-- A request that does not get through the table's check leaves the session as it is. -/
theorem step_value_error {e : Error} (h : (s.tables table).value s.loader key = .error e) :
    s.step (.value table key) = (s, .refused e) := by
  rw [step, h]

theorem step_bind_error {e : Error} {address : Nat}
    (h : (s.tables table).bind s.loader key address = .error e) :
    s.step (.bind table key address) = (s, .refused e) := by
  rw [step, h]

namespace Tracks

variable (h : s.Tracks history)

include h

theorem unknown (hkey : ¬ Allocated table key history) :
    s.step (.value table key) = (s, .refused (unknownError key)) ∧
    ∀ address, s.step (.bind table key address) = (s, .refused (unknownError key)) := by
  have hcell : (s.tables table).cell key = .error (unknownError key) := by
    rw [← h.allocated, Option.not_isSome_iff_eq_none] at hkey
    rw [Trampolines.cell, hkey]
    rfl
  refine ⟨step_value_error ?_, fun address => step_bind_error ?_⟩
  · rw [Trampolines.value, hcell]
    rfl
  · rw [Trampolines.bind, hcell]
    rfl

theorem cell_of_allocated (hkey : Allocated table key history) :
    ∃ i, (s.tables table).cells.lookup key = some i :=
  Option.isSome_iff_exists.mp ((h.allocated table key).mpr hkey)

theorem requireLive_of_released {g : Nat} (hbirth : birth? table history = some g)
    (hg : g ≠ s.loader.generation) :
    (s.tables table).requireLive s.loader = .error releasedError := by
  rw [Trampolines.requireLive, (h.birth table).trans hbirth]
  exact if_neg hg

theorem released {g : Nat} (hbirth : birth? table history = some g) (hg : g ≠ s.loader.generation)
    (hkey : Allocated table key history) :
    s.step (.value table key) = (s, .refused releasedError) ∧
    ∀ address, s.step (.bind table key address) = (s, .refused releasedError) := by
  obtain ⟨i, hi⟩ := h.cell_of_allocated hkey
  have hcell := Trampolines.cell_eq_ok.mpr hi
  have hreleased := h.requireLive_of_released hbirth hg
  refine ⟨step_value_error ?_, fun address => step_bind_error ?_⟩
  · rw [Trampolines.value, hcell]
    show (do (s.tables table).requireLive s.loader; _) = _
    rw [hreleased]
    rfl
  · rw [Trampolines.bind, hcell]
    show (do (s.tables table).requireLive s.loader; _) = _
    rw [hreleased]
    rfl

theorem requireLive_of_birth
    (hbirth : ∀ g, birth? table history = some g → g = s.loader.generation) :
    (s.tables table).requireLive s.loader = .ok () :=
  Trampolines.requireLive_eq_ok.mpr fun g hg => hbirth g ((h.birth table).symm.trans hg)

theorem value (hbirth : birth? table history = some s.loader.generation)
    (hkey : Allocated table key history) :
    s.step (.value table key) = (s, .address (lastBound table key history)) := by
  obtain ⟨i, hi⟩ := h.cell_of_allocated hkey
  have hlive := h.requireLive_of_birth fun g hg => Option.some.inj (hg.symm.trans hbirth)
  have hcell := h.holds table (h.isLive hlive hkey) key i hi
  have hvalue : (s.tables table).value s.loader key = .ok (lastBound table key history) := by
    refine Trampolines.value_eq_ok.mpr ⟨i, hi, hlive, ?_⟩
    rw [Array.getD_eq_getD_getElem?, hcell, Option.getD_some,
      UInt32.toNat_ofNat_of_lt' (h.bound_lt table key)]
  rw [Session.step, hvalue]

/-- What a cell is said to hold depends on what its history says of it. -/
theorem value_congr {s' : Session} {history' : List Event} (h' : s'.Tracks history')
    (hgeneration : s'.loader.generation = s.loader.generation)
    (hbirth : birth? table history' = birth? table history)
    (hallocated : Allocated table key history' ↔ Allocated table key history)
    (hlast : lastBound table key history' = lastBound table key history) :
    (s'.step (.value table key)).2 = (s.step (.value table key)).2 := by
  by_cases hkey : Allocated table key history
  · obtain ⟨g, hg⟩ := hkey.exists_birth
    have hkey' := hallocated.mpr hkey
    have hg' := hbirth.trans hg
    by_cases hlive : g = s.loader.generation
    · subst hlive
      rw [h.value hg hkey, h'.value (hg'.trans (congrArg some hgeneration.symm)) hkey', hlast]
    · rw [(h.released hg hlive hkey).1, (h'.released hg' (hgeneration ▸ hlive) hkey').1]
  · rw [(h.unknown hkey).1, (h'.unknown (mt hallocated.mp hkey)).1]

theorem obeys : s.Obeys history where
  failed_load objects resolve s' e hstep := by
    rw [Session.step] at hstep
    split at hstep
    · cases (Prod.mk.inj hstep).2
    · rename_i l _ hload
      obtain ⟨rfl, -⟩ := Prod.mk.inj hstep
      obtain ⟨himage, hlt⟩ := Loader.released_of_load_error hload
      exact ⟨himage, hlt, fun event he => Nat.lt_of_le_of_lt (h.past event he) hlt⟩
  unknown table key hkey := h.unknown hkey
  released table g hbirth hg := by
    refine ⟨fun keys => ?_, fun key hkey => h.released hbirth hg hkey⟩
    rw [Session.step, Trampolines.allocate, h.requireLive_of_released hbirth hg]
    rfl
  value table hbirth key hkey := h.value hbirth hkey
  bind table hbirth key hkey address haddress := by
    obtain ⟨i, hi⟩ := h.cell_of_allocated hkey
    have hlive := h.requireLive_of_birth fun g hg => Option.some.inj (hg.symm.trans hbirth)
    have hbind := Trampolines.bind_iff.mpr ⟨i, hi, hlive, haddress, rfl⟩
    have htracks := h.bind hbind
    refine ⟨_, by rw [Session.step, hbind], ?_, fun table' key' hne => ?_⟩
    · rw [htracks.value (birth?_concat.trans (by rw [hbirth]; rfl))
        (allocated_concat.mpr (.inl hkey)), lastBound_bind, if_pos ⟨rfl, rfl⟩]
    · refine h.value_congr htracks rfl (birth?_concat.trans Option.or_none)
        (allocated_concat_of_ne fun _ _ => .inl nofun) (lastBound_bind.trans (if_neg ?_))
      rintro ⟨rfl, rfl⟩
      exact hne rfl
  allocate table hbirth keys := by
    obtain ⟨t, l, hallocate⟩ : ∃ t l, (s.tables table).allocate s.loader keys = .ok (t, l) :=
      ⟨_, _, Trampolines.allocate_eq_ok.mpr ⟨h.requireLive_of_birth hbirth, rfl⟩⟩
    refine ⟨_, by rw [Session.step, hallocate], fun table' key hkey => ?_⟩
    obtain ⟨g, hg⟩ := hkey.exists_birth
    refine h.value_congr (h.allocate hallocate) (Trampolines.generation_of_allocate hallocate) ?_
      (iff_of_true (allocated_concat.mpr (.inl hkey)) hkey) lastBound_concat
    rw [birth?_concat, hg]
    rfl

end Tracks

end

/-- What a session answers after any requests of a new loader and new tables: cells live and die
with the image that they were allocated for. -/
theorem obeys_run (config : LoaderConfig) (requests : List Request) :
    ((start config).run requests).2.Obeys ((start config).run requests).1 :=
  (tracks_run (tracks_start config) requests).obeys

/-- A load with no image to make room for keeps the cells, a second load releases them. -/
example :
    ((start ⟨1, 8⟩).run [.allocate 0 ["f", "g"], .bind 0 "f" 7, .load [] fun _ => none,
      .value 0 "f",
      .value 0 "g", .load [] fun _ => none, .value 0 "f", .value 0 "h"]).1.map (·.answer) =
    [.done, .done, .done, .address 7, .address 0, .done, .refused releasedError,
      .refused (unknownError "h")] := by
  decide

end Session

end MutationAnalysis
