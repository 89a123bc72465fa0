/-
Cells of a loaded image.

A table gives every key a cell of its own (`Trampolines.Numbers`), so binding one key leaves the
others as they are bound (`Trampolines.BoundTo`).  Code refers to a cell by a name from which the
key can be read off, and no function of the host has such a name.

* `Trampolines.numbers_of_allocate`: allocating gives distinct keys distinct cells;
* `Trampolines.bind_spec`: what binding a key to a function changes;
* `Trampolines.rebind`: binding it to what it was bound to before takes the change back;
* `WorkerContext.isSetUp_of_setup`: what a loader is set up to: every key
  is bound to its preserved body.
-/
import MutationAnalysis.Campaign.Worker
import MutationAnalysis.Proofs.Image.Redirection

namespace MutationAnalysis

open Wasm

/-! ### Names of cells -/

namespace SymbolName

theorem isPrefixOf?_append {l m : List Char} : l.isPrefixOf? (l ++ m) = some m := by
  induction l with
  | nil => rfl
  | cons c rest ih =>
    rw [List.cons_append, List.isPrefixOf?, if_pos (by simp), ih]

/-- The key of a cell can be read off its name. -/
theorem keyOfCell?_cell (key : String) : keyOfCell? (cell key) = some key := by
  rw [keyOfCell?, before?, cell, String.toList_append, List.isSuffixOf?, List.reverse_append,
    isPrefixOf?_append]
  simp

end SymbolName

namespace Resolver

/-- What objects are linked with that call through no cells. -/
def plain : Resolver := .chain [.overrides, .hostProcess]

/-- What objects are linked with that call through the cells of a table. -/
def withCells (t : Trampolines) : Resolver := .chain [.overrides, .hostProcess, t.resolver]

variable {t : Trampolines} {name : String}

theorem chain_eq (r : Resolver) (name : String) :
    chain [overrides, hostProcess, r] name = (plain name).or (r name) := by
  show List.findSome? _ _ = (List.findSome? _ _).or _
  simp only [List.findSome?_cons, List.findSome?_nil]
  cases overrides name <;> cases hostProcess name <;> cases r name <;> rfl

theorem withCells_eq : withCells t name = (plain name).or (t.resolver name) :=
  chain_eq t.resolver name

/-- The functions of the host that names lead to. -/
def offered : List (String × Native) :=
  [("exit", .emulatedExit), ("atexit", .emulatedAtExit), ("__cxa_atexit", .emulatedCxaAtExit),
    ("abort", .abort), ("putchar", .putChar), ("print_i32", .printI32)]

/-- Without cells, names lead to functions of the host or nowhere. -/
theorem exists_offered_of_plain {d : Definition} (h : plain name = some d) :
    ∃ n, d = .native n ∧ (name, n) ∈ offered := by
  have hplain : plain name = (overrides name).or (hostProcess name) := by
    show List.findSome? _ _ = _
    simp only [List.findSome?_cons, List.findSome?_nil]
    cases overrides name <;> cases hostProcess name <;> rfl
  rw [hplain, Option.or_eq_some_iff] at h
  rcases h with h | ⟨hnone, h⟩
  · unfold overrides at h
    split at h <;> cases h <;> exact ⟨_, rfl, by decide⟩
  · unfold hostProcess at h
    split at h <;> first | (cases h; exact ⟨_, rfl, by decide⟩) | cases hnone | cases h

/-- No function of the host has the name of a cell. -/
theorem plain_eq_some {d : Definition} (h : plain name = some d) :
    (∃ n, d = .native n) ∧ SymbolName.keyOfCell? name = none := by
  obtain ⟨n, rfl, hmem⟩ := exists_offered_of_plain h
  have hkey : ∀ e ∈ offered, SymbolName.keyOfCell? e.1 = none := by decide
  exact ⟨⟨n, rfl⟩, hkey (name, n) hmem⟩

/-- The cell of a key is found under its name. -/
theorem withCells_cell {key : String} {i : Nat} (h : t.cells.lookup key = some i) :
    withCells t (SymbolName.cell key) = some (.cell ⟨t.generation.getD 0, i⟩) := by
  have hkey := SymbolName.keyOfCell?_cell key
  have hnone : plain (SymbolName.cell key) = none := by
    cases hd : plain (SymbolName.cell key) with
    | none => rfl
    | some d =>
      rw [(plain_eq_some hd).2] at hkey
      cases hkey
  rw [withCells_eq, hnone, Option.none_or, Trampolines.resolver, hkey]
  simp [h]

end Resolver

/-! ### Loaders -/

/-- A change of loaders that leaves alone their cells and their addresses. -/
structure Loader.SparesCells (f : Loader → Loader) : Prop where
  cells : ∀ l, (f l).cells = l.cells
  withCells : ∀ (l : Loader) (cells : Array Word), f { l with cells } = { f l with cells }
  generation : ∀ l, (f l).generation = l.generation
  address : ∀ l name, (f l).address? name = l.address? name

/-! ### Tables -/

namespace Trampolines

/-- Keys have cells of their own among so many. -/
structure Numbers (t : Trampolines) (size : Nat) : Prop where
  lt : ∀ key i, t.cells.lookup key = some i → i < size
  injective : ∀ key key' i, t.cells.lookup key = some i → t.cells.lookup key' = some i → key = key'

variable {t : Trampolines} {l l' : Loader} {key key' name : String} {cells : List (String × Nat)}

theorem lookup_insert (key key' : String) (cell : Nat) (h : cells.lookup key = none) :
    (insert key cell cells).lookup key' = if key' = key then some cell else cells.lookup key' := by
  induction cells with
  | nil =>
    rw [insert, List.lookup_cons]
    by_cases heq : key' = key
    · simp [heq]
    · rw [show (key' == key) = false by simpa using heq, if_neg heq]
  | cons entry rest ih =>
    obtain ⟨k, c⟩ := entry
    rw [List.lookup_cons] at h
    have hne : key ≠ k := by
      rintro rfl
      simp at h
    have hrest : rest.lookup key = none := by
      rwa [show (key == k) = false by simpa using hne] at h
    rw [insert]
    -- the key comes before the entry at hand, or among those after it
    split
    · rw [List.lookup_cons]
      by_cases heq : key' = key
      · simp [heq]
      · rw [show (key' == key) = false by simpa using heq, if_neg heq]
    · rw [List.lookup_cons, List.lookup_cons, ih hrest]
      by_cases heq : key' = k
      · subst heq
        simp [Ne.symm hne]
      · rw [show (key' == k) = false by simpa using heq]

theorem lookup_isSome : (t.cells.lookup key).isSome ↔ key ∈ t.keys := by
  rw [Option.isSome_iff_ne_none, ne_eq, List.lookup_eq_none_iff, keys, List.mem_map]
  constructor
  · intro h
    by_contra hnot
    refine h fun p hp => ?_
    simp only [bne_iff_ne, ne_eq]
    rintro rfl
    exact hnot ⟨p, hp, rfl⟩
  · rintro ⟨p, hp, rfl⟩ h
    simpa using h p hp

/-- One more key takes the next cell unless it has one. -/
theorem numbers_allocateKey (h : t.Numbers l.cells.size) (key : String) :
    (allocateKey (t, l) key).1.Numbers (allocateKey (t, l) key).2.cells.size ∧
      (allocateKey (t, l) key).1.generation = t.generation ∧
      (allocateKey (t, l) key).2 = { l with cells := (allocateKey (t, l) key).2.cells } ∧
      ∀ key', ((allocateKey (t, l) key).1.cells.lookup key').isSome ↔
        (t.cells.lookup key').isSome ∨ key' = key := by
  rw [allocateKey]
  split
  · rename_i hsome
    refine ⟨h, rfl, rfl, fun key' => ⟨.inl, ?_⟩⟩
    rintro (hkey | rfl)
    · exact hkey
    · exact hsome
  · rename_i hnone
    rw [Option.not_isSome_iff_eq_none] at hnone
    have hlookup := fun key' => lookup_insert key key' l.cells.size hnone
    refine ⟨⟨?_, ?_⟩, rfl, rfl, fun key' => ?_⟩
    · intro key' i hi
      rw [hlookup] at hi
      rw [Array.size_push]
      split at hi
      · obtain rfl := Option.some.inj hi
        exact Nat.lt_succ_self _
      · exact Nat.lt_succ_of_lt (h.lt key' i hi)
    · -- the new cell has the next number, which no earlier one has
      intro k k' i hk hk'
      rw [hlookup] at hk hk'
      split at hk
      · rename_i heq
        split at hk'
        · rename_i heq'
          exact heq.trans heq'.symm
        · obtain rfl := Option.some.inj hk
          exact absurd (h.lt k' _ hk') (Nat.lt_irrefl _)
      · split at hk'
        · obtain rfl := Option.some.inj hk'
          exact absurd (h.lt k _ hk) (Nat.lt_irrefl _)
        · exact h.injective k k' i hk hk'
    · rw [hlookup]
      split
      · rename_i heq
        simp [heq]
      · rename_i hne
        simp [hne]

/-- More keys take the next cells unless they have some. -/
theorem numbers_foldl_allocateKey (keys : List String) (s : Trampolines × Loader)
    (hs : s.1.Numbers s.2.cells.size) :
    (keys.foldl allocateKey s).1.Numbers (keys.foldl allocateKey s).2.cells.size ∧
      (keys.foldl allocateKey s).1.generation = s.1.generation ∧
      (keys.foldl allocateKey s).2 = { s.2 with cells := (keys.foldl allocateKey s).2.cells } ∧
      ∀ key, ((keys.foldl allocateKey s).1.cells.lookup key).isSome ↔
        (s.1.cells.lookup key).isSome ∨ key ∈ keys := by
  induction keys generalizing s with
  | nil => exact ⟨hs, rfl, rfl, by simp⟩
  | cons key rest ih =>
    obtain ⟨hnumbers, hgeneration, hloader, hkeys⟩ := numbers_allocateKey hs key
    obtain ⟨hnumbers', hgeneration', hloader', hkeys'⟩ := ih _ hnumbers
    refine ⟨hnumbers', hgeneration'.trans hgeneration, ?_, fun key' => ?_⟩
    · rw [List.foldl_cons, hloader', hloader]
    · rw [List.foldl_cons, hkeys', hkeys, List.mem_cons, or_assoc]

/-- A new table numbers the keys that it allocates cells for. -/
theorem numbers_of_allocate {config : LoaderConfig} {keys : List String}
    (h : empty.allocate (.new config) keys = .ok (t, l)) :
    t.Numbers l.cells.size ∧ t.generation = some l.generation ∧
      l = { Loader.new config with cells := l.cells } ∧ ∀ key, key ∈ t.keys ↔ key ∈ keys := by
  have hs : keys.foldl allocateKey (⟨[], some (Loader.new config).generation⟩, Loader.new config)
      = (t, l) := Except.ok.inj h
  have hstart : (⟨[], some (Loader.new config).generation⟩ : Trampolines).Numbers
      (Loader.new config).cells.size := by
    constructor <;> intro key <;> simp
  obtain ⟨hnumbers, hgeneration, hloader, hkeys⟩ :=
    numbers_foldl_allocateKey keys (_, Loader.new config) hstart
  rw [hs] at hnumbers hgeneration hloader hkeys
  replace hloader : l = { Loader.new config with cells := l.cells } := hloader
  refine ⟨hnumbers, ?_, hloader, fun key => ?_⟩
  · rw [hloader]
    exact hgeneration
  · rw [← lookup_isSome, hkeys]
    simp

/-! ### Binding -/

/-- The cell of a key holds the address of a name. -/
def BoundTo (t : Trampolines) (l : Loader) (key name : String) : Prop :=
  ∃ i a, t.cells.lookup key = some i ∧ l.address? name = some a ∧ a < UInt32.size ∧
    l.cells[i]? = some (UInt32.ofNat a)

theorem cell_eq_ok {i : Nat} : t.cell key = .ok i ↔ t.cells.lookup key = some i := by
  rw [cell]
  cases t.cells.lookup key <;> simp

theorem bind_iff {a : Nat} : t.bind l key a = .ok l' ↔ ∃ i, t.cells.lookup key = some i ∧
    t.requireLive l = .ok () ∧ a < UInt32.size ∧
    l' = { l with cells := l.cells.setIfInBounds i (UInt32.ofNat a) } := by
  rw [bind, bind_eq_ok]
  refine exists_congr fun i => and_congr cell_eq_ok ?_
  rw [bind_unit_eq_ok]
  refine and_congr_right fun _ => ?_
  split
  · rename_i hlt
    exact ⟨fun h => ⟨hlt, (Except.ok.inj h).symm⟩, fun h => by rw [h.2]; rfl⟩
  · rename_i hlt
    exact iff_of_false (by simp) fun h => hlt h.1

theorem mem_keys_of_bind {a : Nat} (h : t.bind l key a = .ok l') : key ∈ t.keys := by
  obtain ⟨i, hlookup, -⟩ := bind_iff.mp h
  exact lookup_isSome.mp (by rw [hlookup]; rfl)

theorem bindTo_eq_ok : t.bindTo l key name = .ok l' ↔
    ∃ a, l.address? name = some a ∧ t.bind l key a = .ok l' := by
  rw [bindTo]
  cases l.address? name <;> simp

/-- Binding has nothing to do with what else is changed in a loader. -/
theorem bind_map {f : Loader → Loader} (hf : Loader.SparesCells f) (t : Trampolines) (l : Loader)
    (key : String) (a : Nat) : t.bind (f l) key a = (t.bind l key a).map f := by
  have hlive : t.requireLive (f l) = t.requireLive l := by
    rw [requireLive, requireLive, hf.generation]
  rw [bind, bind, hlive]
  cases t.cell key with
  | error e => rfl
  | ok i =>
    cases t.requireLive l with
    | error e => rfl
    | ok u =>
      show (if a < UInt32.size then _ else _) = Except.map _ (if a < UInt32.size then _ else _)
      split
      · rw [hf.cells]
        exact congrArg Except.ok (hf.withCells l _).symm
      · rfl

theorem bindTo_map {f : Loader → Loader} (hf : Loader.SparesCells f) (t : Trampolines) (l : Loader)
    (key name : String) : t.bindTo (f l) key name = (t.bindTo l key name).map f := by
  rw [bindTo, bindTo, hf.address]
  cases l.address? name with
  | none => rfl
  | some a => exact bind_map hf t l key a

/-- Binding a key to a function changes its cell only. -/
theorem bind_spec (hnumbers : t.Numbers l.cells.size) {a : Nat} (ha : l.address? name = some a)
    (h : t.bind l key a = .ok l') :
    l' = { l with cells := l'.cells } ∧ l'.cells.size = l.cells.size ∧ t.BoundTo l' key name ∧
      ∀ key' name', key' ≠ key → t.BoundTo l key' name' → t.BoundTo l' key' name' := by
  obtain ⟨i, hlookup, -, hlt, rfl⟩ := bind_iff.mp h
  refine ⟨rfl, Array.size_setIfInBounds, ⟨i, a, hlookup, ha, hlt, ?_⟩, ?_⟩
  · exact Array.getElem?_setIfInBounds_self_of_lt (hnumbers.lt key i hlookup)
  · rintro key' name' hne ⟨j, a', hj, ha', hlt', hcell⟩
    refine ⟨j, a', hj, ha', hlt', ?_⟩
    show (l.cells.setIfInBounds i (UInt32.ofNat a))[j]? = _
    rw [Array.getElem?_setIfInBounds_ne, hcell]
    rintro rfl
    exact hne (hnumbers.injective key' key i hj hlookup)

/-- Binding a key to what it was bound to before undoes what was bound in between. -/
theorem rebind (hbound : t.BoundTo l key name) {a : Nat} (h : t.bind l key a = .ok l') :
    t.bindTo l' key name = .ok l := by
  obtain ⟨i, hlookup, hlive, -, rfl⟩ := bind_iff.mp h
  obtain ⟨j, a', hj, ha', hlt', hcell⟩ := hbound
  obtain rfl := Option.some.inj (hlookup.symm.trans hj)
  have ha : ({ l with cells := l.cells.setIfInBounds i (UInt32.ofNat a) } : Loader).address? name
      = some a' := ha'
  rw [bindTo, ha]
  refine bind_iff.mpr ⟨i, hlookup, hlive, hlt', ?_⟩
  have hcells : (l.cells.setIfInBounds i (UInt32.ofNat a)).setIfInBounds i (UInt32.ofNat a')
      = l.cells := by
    refine Array.ext_getElem? fun k => ?_
    by_cases hk : i = k
    · subst hk
      have hi := (Array.getElem?_eq_some_iff.mp hcell).1
      rw [hcell, Array.getElem?_setIfInBounds_self_of_lt (by rwa [Array.size_setIfInBounds])]
    · rw [Array.getElem?_setIfInBounds_ne hk, Array.getElem?_setIfInBounds_ne hk]
  show l = { l with
    cells := (l.cells.setIfInBounds i (UInt32.ofNat a)).setIfInBounds i (UInt32.ofNat a') }
  rw [hcells]

theorem bindTo_spec (hnumbers : t.Numbers l.cells.size) (h : t.bindTo l key name = .ok l') :
    l' = { l with cells := l'.cells } ∧ l'.cells.size = l.cells.size ∧ t.BoundTo l' key name ∧
      ∀ key' name', key' ≠ key → t.BoundTo l key' name' → t.BoundTo l' key' name' := by
  obtain ⟨a, ha, hbind⟩ := bindTo_eq_ok.mp h
  exact bind_spec hnumbers ha hbind

/-- Binding keys to their preserved bodies binds each of them. -/
theorem bindPreservedOf_spec {keys : List String} (hnumbers : t.Numbers l.cells.size)
    (h : t.bindPreservedOf l keys = (l', .ok ())) :
    l' = { l with cells := l'.cells } ∧ l'.cells.size = l.cells.size ∧
      (∀ key ∈ keys, t.BoundTo l' key (SymbolName.preserved key)) ∧
      ∀ key name, key ∉ keys → t.BoundTo l key name → t.BoundTo l' key name := by
  induction keys generalizing l with
  | nil =>
    obtain ⟨rfl, -⟩ := Prod.mk.inj h
    exact ⟨rfl, rfl, by simp, fun _ _ _ hbound => hbound⟩
  | cons key rest ih =>
    rw [bindPreservedOf] at h
    split at h
    · rename_i l₁ hbind
      obtain ⟨hloader, hsize, hbound, hothers⟩ := bindTo_spec hnumbers hbind
      obtain ⟨hloader', hsize', hbound', hothers'⟩ := ih (hsize ▸ hnumbers) h
      refine ⟨?_, hsize'.trans hsize, List.forall_mem_cons.mpr ⟨?_, hbound'⟩,
        fun key' name hkey => ?_⟩
      · rw [hloader', hloader]
      · by_cases hmem : key ∈ rest
        · exact hbound' key hmem
        · exact hothers' key _ hmem hbound
      · rw [List.mem_cons, not_or] at hkey
        exact fun hb => hothers' key' name hkey.2 (hothers key' name hkey.1 hb)
    · exact absurd (Prod.mk.inj h).2 (by simp)

end Trampolines

/-! ### Workers -/

/-- A load that succeeds links the objects. -/
theorem Loader.load_eq_ok {l l' : Loader} {objects : List Object} {resolve : Resolver}
    (hnone : l.image = none) : l.load objects resolve = (l', .ok ()) ↔
      ∃ image, Image.link l.config.memoryPages l.generation objects resolve = .ok image ∧
        l' = { l with host := l.host.resetRun, image := some image } := by
  have hloader : (if l.image.isSome then l.unload else l) = l := by rw [hnone]; rfl
  rw [load, hloader]
  dsimp only
  cases hlink : Image.link l.config.memoryPages l.generation objects resolve with
  | error e => simp
  | ok image =>
    constructor
    · intro h
      exact ⟨image, rfl, (Prod.mk.inj h).1.symm⟩
    · rintro ⟨image', himage, rfl⟩
      obtain rfl := Except.ok.inj himage
      rfl

open Trampolines in
/-- A loader with an image and with cells that are bound to what `bound` says. -/
structure IsSetUp (config : LoaderConfig) (objects : List Object) (keys : List String)
    (t : Trampolines) (l : Loader) (bound : String → String) : Prop where
  config_eq : l.config = config
  numbers : t.Numbers l.cells.size
  image : ∃ image natives, l.image = some image ∧
    Image.IsLinked config.memoryPages objects (Resolver.withCells t) image natives
  boundTo : ∀ key ∈ keys, t.BoundTo l key (bound key)
  host : l.host = HostState.empty.resetRun

namespace IsSetUp

variable {config : LoaderConfig} {objects : List Object} {keys : List String} {t : Trampolines}
  {l l' : Loader} {bound : String → String} {key name : String}

/-- What the code of the image finds in the cell of a key. -/
theorem cellHolds {image : Image} (himage : l.image = some image)
    (hbound : t.BoundTo l key name) :
    image.CellHolds (Resolver.withCells t) l.cells (SymbolName.cell key) name := by
  obtain ⟨i, a, hi, ha, hlt, hcell⟩ := hbound
  refine ⟨⟨t.generation.getD 0, i⟩, a, ?_, ?_, hlt, hcell⟩
  · exact Resolver.withCells_cell hi
  · rw [Loader.address?, himage] at ha
    exact ha

theorem suits {cells : Array Word} (h : t.Numbers cells.size) :
    Image.IsLinked.Suits (Resolver.withCells t) cells := by
  have hresolver : ∀ name d, t.resolver name = some d →
      ∃ c : CellRef, d = .cell c ∧ c.index < cells.size := by
    intro name d hd
    obtain ⟨key, -, hd⟩ := Option.bind_eq_some_iff.mp hd
    obtain ⟨i, hi, hd⟩ := Option.bind_eq_some_iff.mp hd
    obtain rfl := Option.some.inj hd
    exact ⟨_, rfl, h.lt key i hi⟩
  refine ⟨fun name a hd => ?_, fun name c hd => ?_⟩
  all_goals
    rw [Resolver.withCells_eq, Option.or_eq_some_iff] at hd
    rcases hd with hd | ⟨-, hd⟩
  · obtain ⟨⟨n, hn⟩, -⟩ := Resolver.plain_eq_some hd
    cases hn
  · obtain ⟨c, hc, -⟩ := hresolver name _ hd
    cases hc
  · obtain ⟨⟨n, hn⟩, -⟩ := Resolver.plain_eq_some hd
    cases hn
  · obtain ⟨c', hc, hlt⟩ := hresolver name _ hd
    cases hc
    exact hlt

theorem native_iff (t : Trampolines) (name : String) (n : Native) :
    Resolver.plain name = some (.native n) ↔ Resolver.withCells t name = some (.native n) := by
  rw [Resolver.withCells_eq, Option.or_eq_some_iff]
  refine ⟨.inl, fun h => h.resolve_right ?_⟩
  rintro ⟨-, hd⟩
  obtain ⟨key, -, hd⟩ := Option.bind_eq_some_iff.mp hd
  obtain ⟨i, -, hd⟩ := Option.bind_eq_some_iff.mp hd
  cases hd

theorem suits_plain {cells : Array Word} : Image.IsLinked.Suits Resolver.plain cells := by
  refine ⟨fun name a hd => ?_, fun name c hd => ?_⟩
  all_goals
    obtain ⟨⟨n, hn⟩, -⟩ := Resolver.plain_eq_some hd
    cases hn

end IsSetUp

/-- A worker allocates cells, links an image and binds every key to its preserved body. -/
theorem WorkerContext.setup_eq_ok {c : WorkerContext} {t : Trampolines} {l : Loader} :
    c.setup = .ok (t, l) ↔ ∃ l₀ image,
      Trampolines.empty.allocate (.new c.loader) c.keys = .ok (t, l₀) ∧
      Image.link c.loader.memoryPages l₀.generation c.objects (Resolver.withCells t) = .ok image ∧
      t.bindPreserved { l₀ with host := l₀.host.resetRun, image := some image } = (l, .ok ()) := by
  -- allocation changes nothing of a new loader but its cells
  have hnew : ∀ {t : Trampolines} {l₀ : Loader},
      Trampolines.empty.allocate (.new c.loader) c.keys = .ok (t, l₀) →
      l₀.image = none ∧ l₀.config = c.loader := by
    intro t l₀ hallocate
    obtain ⟨-, -, hloader, -⟩ := Trampolines.numbers_of_allocate hallocate
    rw [hloader]
    exact ⟨rfl, rfl⟩
  rw [setup, bind_eq_ok]
  constructor
  · rintro ⟨⟨t₀, l₀⟩, hallocate, h⟩
    obtain ⟨hnone, hconfig⟩ := hnew hallocate
    dsimp only at h
    split at h
    · cases h
    · rename_i l₁ hload
      split at h
      · cases h
      · rename_i l₂ hbind
        obtain ⟨rfl, rfl⟩ := Prod.mk.inj (Except.ok.inj h)
        obtain ⟨image, hlink, rfl⟩ := (Loader.load_eq_ok hnone).mp hload
        exact ⟨l₀, image, hallocate, hconfig ▸ hlink, hbind⟩
  · rintro ⟨l₀, image, hallocate, hlink, hbind⟩
    obtain ⟨hnone, hconfig⟩ := hnew hallocate
    have hload : l₀.load c.objects (.chain [.overrides, .hostProcess, t.resolver])
        = ({ l₀ with host := l₀.host.resetRun, image := some image }, .ok ()) :=
      (Loader.load_eq_ok hnone).mpr ⟨image, hconfig ▸ hlink, rfl⟩
    refine ⟨(t, l₀), hallocate, ?_⟩
    dsimp only
    rw [hload]
    dsimp only
    rw [hbind]
    rfl

/-- A worker begins with every key bound to its preserved body. -/
theorem WorkerContext.isSetUp_of_setup {c : WorkerContext} {t : Trampolines} {l : Loader}
    (h : c.setup = .ok (t, l)) :
    IsSetUp c.loader c.objects c.keys t l SymbolName.preserved := by
  obtain ⟨l₀, image, hallocate, hlink, hbind⟩ := setup_eq_ok.mp h
  obtain ⟨hnumbers, -, hloader, hkeys⟩ := Trampolines.numbers_of_allocate hallocate
  obtain ⟨natives, hlinked⟩ := Image.isLinked_of_link hlink
  obtain ⟨hloader', hsize, hbound, -⟩ := Trampolines.bindPreservedOf_spec
    (l := { l₀ with host := l₀.host.resetRun, image := some image }) hnumbers hbind
  refine ⟨?_, ?_, ⟨image, natives, ?_, hlinked⟩, fun key hkey => ?_, ?_⟩
  · rw [hloader', hloader]
    rfl
  · rw [hsize]
    exact hnumbers
  · rw [hloader']
  · exact hbound key ((hkeys key).mpr hkey)
  · rw [hloader', hloader]
    rfl

theorem WorkerContext.bindMutant_eq_ok {t : Trampolines} {l l' : Loader} {q : MutationPoint} :
    bindMutant t l q = .ok l' ↔
      ∃ a, l.address? q.identifier = some a ∧ t.bind l q.key a = .ok l' := by
  rw [bindMutant]
  cases l.address? q.identifier <;> simp

/-- Binding a mutant has nothing to do with what else is changed in a loader. -/
theorem WorkerContext.bindMutant_map {f : Loader → Loader} (hf : Loader.SparesCells f)
    (t : Trampolines) (l : Loader) (q : MutationPoint) :
    bindMutant t (f l) q = (bindMutant t l q).map f := by
  rw [bindMutant, bindMutant, hf.address]
  cases l.address? q.identifier with
  | none => rfl
  | some a => exact Trampolines.bind_map hf t l q.key a

/-- Binding the mutant of a point leaves all other keys bound to what they were. -/
theorem WorkerContext.isSetUp_of_bindMutant {config : LoaderConfig} {objects : List Object}
    {keys : List String} {t : Trampolines} {l l' : Loader} {bound : String → String}
    {q : MutationPoint} (h : IsSetUp config objects keys t l bound)
    (hbind : bindMutant t l q = .ok l') :
    IsSetUp config objects keys t l'
      (fun key => if key = q.key then q.identifier else bound key) := by
  obtain ⟨a, ha, hbind⟩ := bindMutant_eq_ok.mp hbind
  obtain ⟨hloader, hsize, hself, hothers⟩ := Trampolines.bind_spec h.numbers ha hbind
  refine ⟨?_, hsize ▸ h.numbers, ?_, fun key hkey => ?_, ?_⟩
  · rw [hloader]
    exact h.config_eq
  · rw [hloader]
    exact h.image
  · split
    · rename_i heq
      exact heq ▸ hself
    · rename_i hne
      exact hothers key _ hne (h.boundTo key hkey)
  · rw [hloader]
    exact h.host

end MutationAnalysis
