/-
Where the arguments of a test stand in memory.

The table of pointers and the texts that they point to are written in one piece.  Each
pointer is the address of a text with a zero byte after it, and the table ends with a zero
word.  Table and texts follow each other without a gap and stay within the area, so
together they are all that is written.

* `Arguments.IsLaidOut`: arguments that stand in memory, and what else is in it;
* `Arguments.isLaidOut_setBytes`: this is what the bytes of a layout come to;
* `TestRun.writeArguments_exact`: arguments are written exactly if they fit, and then they stand so;
  what an entry is given, and what is left of the memory if they do not fit.
-/
import MutationAnalysis.Proofs.Image.Cells
import MutationAnalysis.Proofs.TestRun.States
import MutationAnalysis.Proofs.Wasm.Contents
import Mathlib.Algebra.BigOperators.Group.List.Basic

namespace MutationAnalysis

open Wasm

namespace Arguments

variable {arguments : List String} {addresses words : List Nat} {memory : Memory} {next n : Nat}

/-- A stretch of memory. -/
structure Region where
  start : Nat
  length : Nat

/-- The texts of arguments, each with its zero byte, at their addresses. -/
def textRegions (addresses : List Nat) (arguments : List String) : List Region :=
  List.zipWith (fun address a => ⟨address, a.utf8ByteSize + 1⟩) addresses arguments

/-- The pointer table and the texts. -/
def regions (addresses : List Nat) (arguments : List String) : List Region :=
  ⟨argumentArea, tableSize arguments⟩ :: textRegions addresses arguments

/-- Bytes that arguments need: a word for each and one more, and their
texts with a zero byte each. -/
def neededSize (arguments : List String) : Nat :=
  4 * (arguments.length + 1) + (arguments.map fun a => a.utf8ByteSize + 1).sum

/-- Arguments stand in a memory at the given addresses: a table of pointers at the begin of the area
says where, the texts follow, and nothing else differs from the memory before. -/
structure IsLaidOut (arguments : List String) (addresses : List Nat) (before after : Memory) :
    Prop where
  size_eq : after.size = before.size
  length_eq : addresses.length = arguments.length
  pointer : ∀ (i : Nat) a, arguments[i]? = some a → ∃ address, addresses[i]? = some address ∧
    address < UInt32.size ∧ after.loadWord? (argumentArea + 4 * i) = some (UInt32.ofNat address) ∧
    after.read? address (a.utf8ByteSize + 1) = some (a.toUTF8.toList ++ [0])
  terminator : after.loadWord? (argumentArea + 4 * arguments.length) = some 0
  inside : ∀ r ∈ regions addresses arguments,
    argumentArea ≤ r.start ∧ r.start + r.length ≤ argumentArea + argumentAreaSize
  disjoint : (regions addresses arguments).Pairwise fun r s => r.start + r.length ≤ s.start
  outside : ∀ n, (∀ r ∈ regions addresses arguments, ¬ (r.start ≤ n ∧ n < r.start + r.length)) →
    after.byte n = before.byte n

/-! ### Sizes -/

theorem stringsSize_eq_sum (arguments : List String) :
    stringsSize arguments = (arguments.map fun a => a.utf8ByteSize + 1).sum := by
  induction arguments with
  | nil => rfl
  | cons a rest ih => rw [stringsSize, ih, List.map_cons, List.sum_cons]

theorem neededSize_eq (arguments : List String) :
    neededSize arguments = tableSize arguments + stringsSize arguments := by
  rw [neededSize, tableSize, stringsSize_eq_sum, Nat.mul_comm]

/-- The bytes of arguments, whether they fit or not. -/
def layout (arguments : List String) : List UInt8 :=
  (pointers (argumentArea + tableSize arguments) arguments ++ [0]).flatMap (Binary.bytesOfNat 4)
    ++ arguments.flatMap argumentBytes

theorem layout?_eq (arguments : List String) : layout? arguments
    = if argumentAreaSize < neededSize arguments then none else some (layout arguments) := by
  rw [neededSize_eq]
  rfl

theorem length_layout (arguments : List String) :
    (layout arguments).length = neededSize arguments := by
  rw [layout, List.length_append, length_words, length_flatMap_argumentBytes, List.length_append,
    length_pointers, neededSize_eq, tableSize, List.length_singleton]

/-! ### Texts that follow each other -/

/-- Texts lie in the stretch that they make together. -/
theorem bounds_of_mem_textRegions {r : Region}
    (h : r ∈ textRegions (pointers next arguments) arguments) :
    next ≤ r.start ∧ r.start + r.length ≤ next + stringsSize arguments := by
  induction arguments generalizing next with
  | nil => cases h
  | cons a rest ih =>
    rw [stringsSize]
    rcases List.mem_cons.mp h with rfl | h
    · dsimp only
      omega
    · have hrest := ih h
      omega

theorem pairwise_textRegions (next : Nat) (arguments : List String) :
    (textRegions (pointers next arguments) arguments).Pairwise fun r s =>
      r.start + r.length ≤ s.start := by
  induction arguments generalizing next with
  | nil => exact .nil
  | cons a rest ih =>
    refine List.pairwise_cons.mpr ⟨fun s hs => ?_, ih _⟩
    exact (bounds_of_mem_textRegions hs).1

/-- The stretch is that of the texts alone. -/
theorem exists_textRegion (hle : next ≤ n) (hlt : n < next + stringsSize arguments) :
    ∃ r ∈ textRegions (pointers next arguments) arguments, r.start ≤ n ∧
      n < r.start + r.length := by
  induction arguments generalizing next with
  | nil =>
    rw [stringsSize] at hlt
    omega
  | cons a rest ih =>
    rw [stringsSize] at hlt
    rcases Nat.lt_or_ge n (next + a.utf8ByteSize + 1) with hfirst | hothers
    · exact ⟨_, List.mem_cons_self, hle, hfirst⟩
    · obtain ⟨r, hr, hbounds⟩ := ih hothers (by omega)
      exact ⟨r, List.mem_cons_of_mem _ hr, hbounds⟩

/-! ### What memory holds -/

theorem holds_word {address w : Nat}
    (h : memory.Holds address (words.flatMap (Binary.bytesOfNat 4)))
    {i : Nat} (hw : words[i]? = some w) :
    memory.Holds (address + 4 * i) (Binary.bytesOfNat 4 w) := by
  induction words generalizing address i with
  | nil => cases hw
  | cons w' rest ih =>
    obtain ⟨hfirst, hrest⟩ := Memory.holds_append.mp h
    cases i with
    | zero =>
      obtain rfl := Option.some.inj hw
      exact hfirst
    | succ i =>
      have hnext : address + 4 * (i + 1) = address + (Binary.bytesOfNat 4 w').length + 4 * i := by
        rw [show (Binary.bytesOfNat 4 w').length = 4 from rfl]
        omega
      rw [hnext]
      exact ih hrest hw

/-- Texts that follow each other stand at the addresses of their pointers. -/
theorem holds_text {a : String} (h : memory.Holds next (arguments.flatMap argumentBytes)) {i : Nat}
    (ha : arguments[i]? = some a) : ∃ address, (pointers next arguments)[i]? = some address ∧
      address < next + stringsSize arguments ∧ memory.Holds address (argumentBytes a) := by
  induction arguments generalizing next i with
  | nil => cases ha
  | cons a' rest ih =>
    obtain ⟨hfirst, hrest⟩ := Memory.holds_append.mp h
    rw [stringsSize]
    cases i with
    | zero =>
      obtain rfl := Option.some.inj ha
      exact ⟨next, rfl, by omega, hfirst⟩
    | succ i =>
      have hlength : (argumentBytes a').length = a'.utf8ByteSize + 1 := by
        rw [argumentBytes, List.length_append, Binary.length_utf8]
        rfl
      rw [hlength] at hrest
      obtain ⟨address, haddress, hlt, hholds⟩ := ih hrest ha
      exact ⟨address, haddress, by omega, hholds⟩

/-- Arguments that fit are laid out by the bytes of their layout. -/
theorem isLaidOut_setBytes (hfits : neededSize arguments ≤ argumentAreaSize)
    (hpage : pageSize ≤ memory.size) :
    IsLaidOut arguments (pointers (argumentArea + tableSize arguments) arguments) memory
      (memory.setBytes argumentArea (layout arguments)) := by
  have harea : argumentArea + argumentAreaSize ≤ pageSize := by decide
  have hwords : argumentArea + argumentAreaSize < UInt32.size := by decide
  have hneeded := neededSize_eq arguments
  have htable : tableSize arguments = (arguments.length + 1) * 4 := rfl
  have hroom : argumentArea + (layout arguments).length ≤ memory.size := by
    rw [length_layout]
    omega
  obtain ⟨htables, htexts⟩ := Memory.holds_append.mp (Memory.holds_setBytes hroom)
  rw [length_words, List.length_append, length_pointers, List.length_singleton, ← htable] at htexts
  refine ⟨Memory.size_setBytes _ _ _, length_pointers _ _, fun i a ha => ?_, ?_, fun r hr => ?_, ?_,
    fun n hn => Memory.byte_setBytes_outside hroom ?_⟩
  · obtain ⟨address, haddress, hlt, hholds⟩ := holds_text htexts ha
    have hindex := (List.getElem?_eq_some_iff.mp haddress).1
    have hword := holds_word htables (by rw [List.getElem?_append_left hindex, haddress])
    have hread := hholds.read?
    rw [argumentBytes, List.length_append, Binary.length_utf8] at hread
    exact ⟨address, haddress, by omega, hword.loadWord? (by omega), hread⟩
  · have hlast := holds_word htables (i := arguments.length) (w := 0)
      (by
        rw [List.getElem?_append_right (by rw [length_pointers]), length_pointers, Nat.sub_self]
        rfl)
    exact hlast.loadWord? (by decide)
  · rcases List.mem_cons.mp hr with rfl | hr
    · dsimp only
      omega
    · have hbounds := bounds_of_mem_textRegions hr
      omega
  · refine List.pairwise_cons.mpr ⟨fun r hr => ?_, pairwise_textRegions _ _⟩
    exact (bounds_of_mem_textRegions hr).1
  · -- a byte between the ends of what is written is in the table or in a text
    rw [length_layout]
    by_contra hinside
    have hafter := hn _ List.mem_cons_self
    dsimp only at hafter
    have hin : ∃ r ∈ textRegions (pointers (argumentArea + tableSize arguments) arguments)
        arguments, r.start ≤ n ∧ n < r.start + r.length :=
      exists_textRegion (by omega) (by omega)
    obtain ⟨r, hr, hmem⟩ := hin
    exact hn r (List.mem_cons_of_mem _ hr) hmem

end Arguments

namespace TestRun

variable {l : Loader} {image : Image} {programName : String} {test : Test} {ref : FuncRef Native}

/-- The function at a test's entry takes the number of arguments and the address of their table. -/
def TakesArguments (l : Loader) (test : Test) (ref : FuncRef Native) : Prop :=
  ∃ a type, l.address? test.entry = some a ∧ l.function? a = some ref ∧ l.type? ref = some type ∧
    type.params = 2

/-- The refusal of arguments that do not fit. -/
def tooLong (test : Test) : Error :=
  ⟨.invalidState, "arguments of '" ++ test.name ++ "' exceed " ++ toString argumentAreaSize
    ++ " bytes"⟩

theorem writeArguments_of_le (himage : l.image = some image) (hpage : pageSize ≤ image.memory.size)
    (hfits : Arguments.neededSize (programName :: test.arguments) ≤ argumentAreaSize) :
    writeArguments l programName test = .ok (1 + test.arguments.length, l.setMemory
      (image.memory.setBytes argumentArea (Arguments.layout (programName :: test.arguments)))) := by
  have harea : argumentArea + argumentAreaSize ≤ pageSize := by decide
  refine writeArguments_eq_ok.mpr ⟨_, image, _, ?_, himage, Memory.write?_eq_some.mpr ⟨?_, rfl⟩,
    Nat.add_comm _ _, rfl⟩
  · rw [Arguments.layout?_eq, if_neg (Nat.not_lt.mpr hfits)]
  · rw [Arguments.length_layout]
    omega

theorem writeArguments_of_lt
    (hlong : argumentAreaSize < Arguments.neededSize (programName :: test.arguments)) :
    writeArguments l programName test = .error (tooLong test) := by
  rw [writeArguments, Arguments.layout?_eq, if_pos hlong]
  rfl

/-- An entry that takes arguments is given their number and where their table is. -/
theorem prepareEntry_of_takesArguments (h : TakesArguments l test ref) :
    prepareEntry l programName test = (writeArguments l programName test).map fun written =>
      (ref, [UInt32.ofNat written.1, UInt32.ofNat argumentArea], written.2) := by
  obtain ⟨a, type, ha, href, htype, hparams⟩ := h
  have hfound : (l.address? test.entry).bind l.function? = some ref := by
    rw [ha, Option.bind_some, href]
  simp only [prepareEntry, hfound, htype, Option.map_some, hparams]
  cases writeArguments l programName test <;> rfl

/-- A run whose entry cannot be prepared is invalid, and nothing is written. -/
theorem run_of_prepareEntry_error (himage : l.image = some image) {e : Error}
    (h : prepareEntry (l.mapHost HostState.resetRun) programName test = .error e) :
    run programName l test = (.outcome ⟨.invalid, e.message⟩, l.mapHost HostState.resetRun) := by
  have hloaded : l.isLoaded = true := by
    rw [Loader.isLoaded, himage]
    rfl
  simp only [run, hloaded, if_true, h]

/-- Arguments are written exactly if they and their table fit in the area.  Then they stand in
memory as the entry expects them, and it is given their number and the address of the table.  If
they do not fit, the test is invalid and the memory is as it was. -/
theorem writeArguments_exact (himage : l.image = some image) (hpage : pageSize ≤ image.memory.size)
    (programName : String) (test : Test) :
    (Arguments.neededSize (programName :: test.arguments) ≤ argumentAreaSize → ∃ addresses memory,
      Arguments.IsLaidOut (programName :: test.arguments) addresses image.memory memory ∧
      writeArguments l programName test = .ok (1 + test.arguments.length, l.setMemory memory) ∧
      ∀ ref, TakesArguments l test ref → prepareEntry l programName test
        = .ok (ref, [UInt32.ofNat (1 + test.arguments.length), 0x1000], l.setMemory memory)) ∧
    (argumentAreaSize < Arguments.neededSize (programName :: test.arguments) →
      writeArguments l programName test = .error (tooLong test) ∧
      ∀ ref, TakesArguments l test ref →
        (run programName l test).1 = .outcome ⟨.invalid, (tooLong test).message⟩ ∧
        (run programName l test).2.image = some image) := by
  constructor
  · intro hfits
    have hwrite := writeArguments_of_le himage hpage hfits
    refine ⟨_, _, Arguments.isLaidOut_setBytes hfits hpage, hwrite, fun ref href => ?_⟩
    rw [prepareEntry_of_takesArguments href, hwrite]
    rfl
  · intro hlong
    refine ⟨writeArguments_of_lt hlong, fun ref href => ?_⟩
    -- the state of the host does not matter to what an entry takes
    have hreset : TakesArguments (l.mapHost HostState.resetRun) test ref := href
    have hentry : prepareEntry (l.mapHost HostState.resetRun) programName test = .error
        (tooLong test) := by
      rw [prepareEntry_of_takesArguments hreset, writeArguments_of_lt hlong]
      rfl
    rw [run_of_prepareEntry_error himage hentry]
    exact ⟨rfl, himage⟩

end TestRun

/-! ### A test with arguments -/

/-- A program whose entry takes arguments. -/
def counted : Program where
  functions := [{
    name := "main", numParams := 2, numLocals := 0, returnType := .int
    blocks := [⟨[.returning (some 0)]⟩] }]
  declarations := []
  constructors := []
  version := 1

def countedTest : Test := .new "counts" "main" ["", "a\x00b"]

/-- The image of the program alone. -/
def countedLoader : Loader :=
  ((Loader.new ⟨1, 8⟩).load (Object.compile counted "m" false).toOption.toList
    (.chain [.overrides, .hostProcess])).1

/-- An argument without characters and one that holds a zero byte stand behind the program's name,
and the entry is given that they are three. -/
theorem counted_arguments : ∃ image addresses memory, countedLoader.image = some image ∧
    pageSize ≤ image.memory.size ∧
    Arguments.IsLaidOut ["mutant", "", "a\x00b"] addresses image.memory memory ∧
    TestRun.prepareEntry countedLoader "mutant" countedTest
      = .ok (.defined 0 0, [3, 0x1000], countedLoader.setMemory memory) := by
  have hok : ((Loader.new ⟨1, 8⟩).load (Object.compile counted "m" false).toOption.toList
      (.chain [.overrides, .hostProcess])).2 = .ok () := by decide +kernel
  obtain ⟨image, hlink, hloader⟩ :=
    (Loader.load_eq_ok rfl).mp (Prod.ext (y := (countedLoader, _)) rfl hok)
  have himage : countedLoader.image = some image := by rw [hloader]
  have hpage : pageSize ≤ image.memory.size := by
    obtain ⟨_, hlinked⟩ := Image.isLinked_of_link hlink
    rw [hlinked.memory, Memory.size_blank]
    decide
  have hentry : TestRun.TakesArguments countedLoader countedTest (.defined 0 0) :=
    ⟨1, ⟨2, true⟩, by decide +kernel, by decide +kernel, by decide +kernel, rfl⟩
  obtain ⟨addresses, memory, hlaid, -, hprepare⟩ :=
    (TestRun.writeArguments_exact himage hpage "mutant" countedTest).1 (by decide)
  exact ⟨image, addresses, memory, himage, hpage, hlaid, hprepare _ hentry⟩

end MutationAnalysis
