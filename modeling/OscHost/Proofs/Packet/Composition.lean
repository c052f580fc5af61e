import OscHost.Packet.Composer
import OscHost.Proofs.Packet.PacketTree
import OscHost.Proofs.Wire.Appending
import Mathlib.Data.List.Forall2
import Mathlib.Logic.Function.Iterate

/-!
# Composition

A composer works at a draft: the bundles that are open and what was put into each of them. `Keeps` says
how the draft lies in the buffer, with a blank length word in front of every nested bundle that is still
open. A request that succeeds changes the draft, one that fails does not, and what is left once all
bundles are closed is the encoding of the draft.
-/

namespace OscHost

namespace Composer

inductive Request where
  | openBundle (time : TimeTag)
  | message (path : String) (args : List Argument)
  | element (packet : List UInt8)
  | closeBundle
  deriving DecidableEq, Repr

def serve : Request → Compose Unit
  | .openBundle time => openBundle time
  | .message path args => message path args
  | .element packet => element packet
  | .closeBundle => closeBundle

/-- A request, how many bundles were open when it was made, and whether it succeeded. -/
structure Made where
  request : Request
  depth : Nat
  succeeded : Bool
  deriving DecidableEq, Repr

/-- What becomes of a sequence of requests, and the composer after them. -/
def observe (c : Composer) : List Request → List Made × Composer
  | [] => ([], c)
  | request :: rest =>
    match serve request c with
    | .ok () next =>
      let (made, last) := next.observe rest
      (⟨request, c.depth, true⟩ :: made, last)
    | .error _ next =>
      let (made, last) := next.observe rest
      (⟨request, c.depth, false⟩ :: made, last)

def successes (made : List Made) : List Request := (made.filter (·.succeeded)).map (·.request)

end Composer

/-! ### Drafts -/

/-- What was asked for as an element, with the elements of a bundle in order. -/
inductive Outline where
  | message (path : String) (args : List Argument)
  | packet (bytes : List UInt8)
  | bundle (time : TimeTag) (elements : List Outline)

namespace Outline

mutual

def bytes : Outline → List UInt8
  | message path args => (MessageForm.written path args).bytes
  | packet bytes => bytes
  | bundle time elements => bundleBytes time (bodyBytes elements)

def bodyBytes : List Outline → List UInt8
  | [] => []
  | element :: rest => bigEndian 4 element.bytes.length ++ element.bytes ++ bodyBytes rest

end

/-- The packet is what the outline says: its time tags, the addresses and arguments of its messages,
and the bytes of elements that were given as bytes. -/
inductive Describes : Outline → PacketTree → Prop where
  | message {m : Message} : Describes (.message m.path m.arguments) (.message m)
  | packet {tree : PacketTree} : Describes (.packet tree.bytes) tree
  | bundle {time : TimeTag} {elements : List Outline} {trees : List PacketTree}
      (each : List.Forall₂ Describes elements trees) : Describes (.bundle time elements) (.bundle time trees)

end Outline

/-- A bundle and its elements so far. -/
structure BundleDraft where
  time : TimeTag
  elements : List Outline := []

namespace BundleDraft

def outline (bundle : BundleDraft) : Outline := .bundle bundle.time bundle.elements

def add (bundle : BundleDraft) (element : Outline) : BundleDraft :=
  { bundle with elements := bundle.elements ++ [element] }

end BundleDraft

/-- What a composer works at. -/
inductive Draft where
  /-- The bundles that are open, innermost first. There are none before the first is opened. -/
  | opened (bundles : List BundleDraft)
  /-- The outermost bundle once it is closed. -/
  | finished (bundle : BundleDraft)

namespace Draft

def bundles : Draft → List BundleDraft
  | opened bundles => bundles
  | finished _ => []

/-- Add an element to the innermost open bundle. -/
def add (element : Outline) : Draft → Draft
  | opened (bundle :: outer) => opened (bundle.add element :: outer)
  | draft => draft

/-- Close the innermost open bundle. It becomes an element of the next one. -/
def close : Draft → Draft
  | opened [bundle] => finished bundle
  | opened (bundle :: next :: outer) => opened (next.add bundle.outline :: outer)
  | draft => draft

def openBundle (time : TimeTag) : Draft → Draft
  | opened bundles => opened ({ time } :: bundles)
  | finished bundle => finished bundle

def apply (draft : Draft) : Composer.Request → Draft
  | .openBundle time => draft.openBundle time
  | .message path args => draft.add (.message path args)
  | .element packet => draft.add (.packet packet)
  | .closeBundle => draft.close

/-- The draft that these requests lead to, if they all succeed. -/
def ofRequests (requests : List Composer.Request) : Draft := requests.foldl apply (opened [])

/-- The outermost bundle, with everything closed that is still open. -/
def finish (draft : Draft) : Option Outline :=
  match close^[draft.bundles.length] draft with
  | opened _ => none
  | finished bundle => some bundle.outline

end Draft

/-! ### Drafts in a buffer -/

/-- What stands in the buffer for the bundles that are open. The length word of every bundle but the
outermost one is still blank. -/
def layout : List BundleDraft → List UInt8
  | [] => []
  | [bundle] => bundle.outline.bytes
  | bundle :: next :: outer => layout (next :: outer) ++ (zeros 4 ++ bundle.outline.bytes)

/-- Where the blank length words are. -/
def blanks : List BundleDraft → List ElementMark
  | _ :: next :: outer => ⟨(layout (next :: outer)).length⟩ :: blanks (next :: outer)
  | _ => []

def Draft.bytes : Draft → List UInt8
  | opened bundles => layout bundles
  | finished bundle => bundle.outline.bytes

/-- An outline that a packet fits which may be an element inside as many bundles as `depth` says. -/
def Outline.Fits (depth : Nat) (o : Outline) : Prop :=
  ∃ tree, o.Describes tree ∧ tree.Valid ∧ tree.bytes = o.bytes ∧ depth + tree.depth ≤ maxBundleDepth

/-- The elements of a bundle at this depth fit it, and their lengths fit their words. -/
def BundleDraft.Fits (depth : Nat) (bundle : BundleDraft) : Prop :=
  ∀ element ∈ bundle.elements, element.bytes.length ≤ maxLength ∧ element.Fits depth

/-- Every open bundle fits the depth at which it stands. -/
def AllFit : List BundleDraft → Prop
  | [] => True
  | bundle :: outer => bundle.Fits (outer.length + 1) ∧ AllFit outer

def Draft.Fits : Draft → Prop
  | opened bundles => bundles.length ≤ maxBundleDepth ∧ AllFit bundles
  | finished bundle => bundle.Fits 1

/-- What a composer has written is this draft. -/
structure Composer.Keeps (c : Composer) (draft : Draft) : Prop where
  depth : c.depth = draft.bundles.length
  marks : c.marks = blanks draft.bundles
  written : c.writer.written = draft.bytes
  fits : draft.Fits

namespace Outline

theorem bodyBytes_append (elements : List Outline) (element : Outline) :
    bodyBytes (elements ++ [element]) =
      bodyBytes elements ++ (bigEndian 4 element.bytes.length ++ element.bytes) := by
  induction elements with
  | nil => simp only [bodyBytes, List.nil_append, List.append_nil]
  | cons first elements ih => simp only [List.cons_append, bodyBytes, ih, List.append_assoc]

theorem fits_message {path : String} {args : List Argument} {depth : Nat} (shallow : depth ≤ maxBundleDepth)
    (address : Text.isAddress path = true) (encodable : ∀ arg ∈ args, arg.Encodable) :
    (message path args).Fits depth := by
  have valid := MessageForm.valid_written address encodable
  have arguments := (MessageForm.arguments_message valid).trans (MessageForm.arguments_written path args)
  refine ⟨.message (MessageForm.written path args).message, ?_, ?_, rfl, shallow⟩
  · have described := Describes.message (m := (MessageForm.written path args).message)
    rw [arguments] at described
    exact described
  · exact .message (Message.parse_eq_ok.mpr ⟨_, valid, rfl, rfl⟩)

theorem fits_packet {tree : PacketTree} {depth : Nat} (valid : tree.Valid)
    (shallow : depth + tree.depth ≤ maxBundleDepth) : (packet tree.bytes).Fits depth :=
  ⟨tree, .packet, valid, by rw [bytes], shallow⟩

end Outline

theorem BundleDraft.bytes_add (bundle : BundleDraft) (element : Outline) :
    (bundle.add element).outline.bytes =
      bundle.outline.bytes ++ (bigEndian 4 element.bytes.length ++ element.bytes) := by
  rw [outline, outline, Outline.bytes, Outline.bytes, add, Outline.bodyBytes_append, bundleBytes,
    bundleBytes]
  simp only [List.append_assoc]

theorem BundleDraft.fits_empty (time : TimeTag) (depth : Nat) : BundleDraft.Fits depth ⟨time, []⟩ :=
  fun _ member => absurd member List.not_mem_nil

theorem BundleDraft.Fits.add {bundle : BundleDraft} {element : Outline} {depth : Nat}
    (fits : bundle.Fits depth) (short : element.bytes.length ≤ maxLength) (fit : element.Fits depth) :
    (bundle.add element).Fits depth := by
  intro other member
  rcases List.mem_append.mp member with member | member
  · exact fits other member
  · rw [List.mem_singleton.mp member]
    exact ⟨short, fit⟩

/-- A bundle is one deeper than its elements. -/
theorem BundleDraft.Fits.outline {bundle : BundleDraft} {depth : Nat} (fits : bundle.Fits (depth + 1))
    (shallow : depth + 1 ≤ maxBundleDepth) : bundle.outline.Fits depth := by
  obtain ⟨time, elements⟩ := bundle
  have trees : ∃ trees : List PacketTree, List.Forall₂ Outline.Describes elements trees ∧
      (∀ tree ∈ trees, tree.bytes.length ≤ maxLength) ∧ (∀ tree ∈ trees, tree.Valid) ∧
      PacketTree.bodyBytes trees = Outline.bodyBytes elements ∧
      ∀ tree ∈ trees, tree.depth ≤ maxBundleDepth - (depth + 1) := by
    induction elements with
    | nil => exact ⟨[], .nil, nofun, nofun, rfl, nofun⟩
    | cons element elements ih =>
      obtain ⟨⟨short, tree, described, valid, same, deep⟩, rest⟩ := List.forall_mem_cons.mp fits
      obtain ⟨trees, describes, shorts, valids, bodies, depths⟩ := ih rest
      refine ⟨tree :: trees, .cons described describes, List.forall_mem_cons.mpr ⟨?_, shorts⟩,
        List.forall_mem_cons.mpr ⟨valid, valids⟩, ?_, List.forall_mem_cons.mpr ⟨?_, depths⟩⟩
      · rw [same]
        exact short
      · rw [PacketTree.bodyBytes, Outline.bodyBytes, same, bodies]
      · omega
  obtain ⟨trees, describes, shorts, valids, bodies, depths⟩ := trees
  refine ⟨.bundle time trees, .bundle describes, .bundle shorts valids, ?_, ?_⟩
  · rw [PacketTree.bytes, BundleDraft.outline, Outline.bytes, bodies]
  · have := PacketTree.depths_le.mpr depths
    rw [PacketTree.depth]
    omega

/-! ### Requests -/

namespace Composer

variable {c c' : Composer} {e : WireError} {done : Unit} {bytes : List UInt8}

/-- All that a composer goes by is as it was; beyond the cursor the buffer may differ. -/
structure Resumes (c c' : Composer) : Prop where
  written : c'.writer.written = c.writer.written
  marks : c'.marks = c.marks
  depth : c'.depth = c.depth

theorem Resumes.refl (c : Composer) : c.Resumes c := ⟨rfl, rfl, rfl⟩

theorem attempt_eq_ok {step : Write α} {a : α} :
    attempt step c = .ok a c' ↔ ∃ w, step c.writer = .ok a w ∧ { c with writer := w } = c' := by
  rw [attempt]
  cases step c.writer <;> simp

theorem attempt_error {step : Write α} (appends : Writer.Appends step) (failed : attempt step c = .error e c') :
    c.Resumes c' := by
  rw [attempt] at failed
  cases stepped : step c.writer with
  | ok a w =>
    rw [stepped] at failed
    cases failed
  | error _ w =>
    rw [stepped] at failed
    cases failed
    exact ⟨Writer.written_rewind ((appends c.writer).2 _ w stepped), rfl, rfl⟩

/-! A request that fails. -/

theorem openBundle_error {time : TimeTag} (failed : openBundle time c = .error e c') : c.Resumes c' := by
  simp only [openBundle, bind_eq_error, get_ne_error, false_or, get_eq_ok] at failed
  obtain ⟨_, _, ⟨rfl, rfl⟩, failed⟩ := failed
  rcases when_eq_error.mp failed with ⟨_, _, rfl⟩ | ⟨_, failed⟩
  · exact .refl c
  · split at failed
    · rcases unless_eq_error.mp failed with ⟨_, failed⟩ | ⟨_, _, rfl⟩
      · rcases bind_eq_error.mp failed with failed | ⟨_, _, _, failed⟩
        · exact attempt_error (Writer.appends_putBundleHeader time) failed
        · exact absurd failed modify_ne_error
      · exact .refl c
    · rcases bind_eq_error.mp failed with failed | ⟨_, _, _, failed⟩
      · refine attempt_error ?_ failed
        exact Writer.appends_bind Writer.appends_beginElement fun _ =>
          Writer.appends_bind (Writer.appends_putBundleHeader time) fun _ => Writer.appends_pure _
      · exact absurd failed modify_ne_error

theorem append_error {content : Write Unit} (appends : Writer.Appends content)
    (failed : append content c = .error e c') : c.Resumes c' := by
  simp only [append, bind_eq_error, get_ne_error, false_or, get_eq_ok] at failed
  obtain ⟨_, _, ⟨rfl, rfl⟩, failed⟩ := failed
  rcases when_eq_error.mp failed with ⟨_, _, rfl⟩ | ⟨_, failed⟩
  · exact .refl c
  · exact attempt_error (Writer.appends_putElement appends) failed

theorem serve_error {request : Request} (other : request ≠ .closeBundle)
    (failed : serve request c = .error e c') : c.Resumes c' := by
  cases request with
  | openBundle time => exact openBundle_error failed
  | message path args => exact append_error (Writer.appends_putMessage path args) failed
  | element packet => exact append_error (Writer.appends_put packet) failed
  | closeBundle => exact absurd rfl other

/-! A request that succeeds. -/

theorem append_ok {content : Write Unit}
    (writes : ∀ w w', content w = .ok () w' → w'.written = w.written ++ bytes)
    (appended : append content c = .ok done c') :
    c.depth ≠ 0 ∧ (∃ w w', content w = .ok () w') ∧ bytes.length ≤ maxLength ∧
      c'.marks = c.marks ∧ c'.depth = c.depth ∧
      c'.writer.written = c.writer.written ++ (bigEndian 4 bytes.length ++ bytes) := by
  simp only [append, bind_eq_ok, get_eq_ok, when_eq_ok] at appended
  obtain ⟨_, _, ⟨rfl, rfl⟩, positive, appended⟩ := appended
  obtain ⟨w, put, rfl⟩ := attempt_eq_ok.mp appended
  obtain ⟨written, short, whole⟩ := Writer.putElement_ok writes put
  exact ⟨positive, written, short, rfl, rfl, whole⟩

theorem openBundle_ok {time : TimeTag} (opened : openBundle time c = .ok done c') :
    c.depth ≠ maxBundleDepth ∧ c'.depth = c.depth + 1 ∧
      if c.depth = 0 then
        c.writer.written = [] ∧ c'.marks = c.marks ∧ c'.writer.written = bundleBytes time []
      else
        c'.marks = ⟨c.writer.written.length⟩ :: c.marks ∧
          c'.writer.written = c.writer.written ++ (zeros 4 ++ bundleBytes time []) := by
  simp only [openBundle, bind_eq_ok, get_eq_ok, when_eq_ok] at opened
  obtain ⟨_, _, ⟨rfl, rfl⟩, shallow, opened⟩ := opened
  refine ⟨shallow, ?_⟩
  split at opened
  · rename_i outermost
    simp only [bind_eq_ok, unless_eq_ok, attempt_eq_ok, modify_eq_ok, Writer.putBundleHeader,
      Writer.put_eq_ok] at opened
    obtain ⟨start, _, _, ⟨_, ⟨_, rfl⟩, rfl⟩, rfl⟩ := opened
    have empty : c.writer.written = [] := List.length_eq_zero_iff.mp start
    rw [if_pos outermost, outermost]
    refine ⟨rfl, empty, rfl, ?_⟩
    simp [empty, bundleBytes]
  · rename_i nested
    simp only [bind_eq_ok, attempt_eq_ok, modify_eq_ok, Writer.beginElement_eq_ok, Writer.putBundleHeader,
      Writer.put_eq_ok, pure_eq_ok] at opened
    obtain ⟨_, _, ⟨_, ⟨_, _, ⟨rfl, _, rfl⟩, _, _, ⟨_, rfl⟩, rfl, rfl⟩, rfl⟩, rfl⟩ := opened
    rw [if_neg nested]
    refine ⟨rfl, rfl, ?_⟩
    simp [bundleBytes]

theorem closeBundle_ok (closed : closeBundle c = .ok done c') :
    c.depth ≠ 0 ∧ c'.depth = c.depth - 1 ∧ c'.marks = c.marks.tail ∧
      match c.marks with
      | [] => c'.writer = c.writer
      | mark :: _ => Writer.endElement mark c.writer = .ok () c'.writer := by
  simp only [closeBundle, bind_eq_ok, get_eq_ok, when_eq_ok, set_eq_ok] at closed
  obtain ⟨_, _, ⟨rfl, rfl⟩, positive, _, _, rfl, closed⟩ := closed
  refine ⟨positive, ?_⟩
  cases marks : c.marks with
  | nil =>
    simp only [marks, pure_eq_ok] at closed
    obtain ⟨_, rfl⟩ := closed
    exact ⟨rfl, rfl, rfl⟩
  | cons mark outer =>
    simp only [marks, attempt_eq_ok] at closed
    obtain ⟨w, ended, rfl⟩ := closed
    exact ⟨rfl, rfl, ended⟩

/-! ### Keeping a draft -/

theorem layout_add (bundle : BundleDraft) (outer : List BundleDraft) (element : Outline) :
    layout (bundle.add element :: outer) =
      layout (bundle :: outer) ++ (bigEndian 4 element.bytes.length ++ element.bytes) := by
  cases outer with
  | nil => exact bundle.bytes_add element
  | cons next outer => simp only [layout, bundle.bytes_add, List.append_assoc]

theorem blanks_add (bundle : BundleDraft) (outer : List BundleDraft) (element : Outline) :
    blanks (bundle.add element :: outer) = blanks (bundle :: outer) := by
  cases outer <;> rfl

namespace Keeps

variable {draft : Draft}

theorem resumes (keeps : c.Keeps draft) (same : c.Resumes c') : c'.Keeps draft where
  depth := same.depth.trans keeps.depth
  marks := same.marks.trans keeps.marks
  written := same.written.trans keeps.written
  fits := keeps.fits

theorem exists_open (keeps : c.Keeps draft) (positive : c.depth ≠ 0) :
    ∃ bundle outer, draft = .opened (bundle :: outer) := by
  rw [keeps.depth] at positive
  cases draft with
  | finished bundle => exact absurd rfl positive
  | opened bundles =>
    cases bundles with
    | nil => exact absurd rfl positive
    | cons bundle outer => exact ⟨bundle, outer, rfl⟩

theorem shallow (keeps : c.Keeps draft) : c.depth ≤ maxBundleDepth := by
  rw [keeps.depth]
  cases draft with
  | opened bundles => exact keeps.fits.1
  | finished bundle => exact Nat.zero_le _

theorem append {content : Write Unit} {element : Outline} (keeps : c.Keeps draft)
    (writes : ∀ w w', content w = .ok () w' →
      element.Fits c.depth ∧ w'.written = w.written ++ element.bytes)
    (appended : append content c = .ok done c') : c'.Keeps (draft.add element) := by
  obtain ⟨positive, ⟨w, w', put⟩, short, marks, depth, written⟩ :=
    append_ok (fun w w' put => (writes w w' put).2) appended
  have fit := (writes w w' put).1
  obtain ⟨bundle, outer, rfl⟩ := keeps.exists_open positive
  obtain ⟨shallow, fits, outerFits⟩ := keeps.fits
  rw [keeps.depth] at fit depth
  refine ⟨depth, ?_, ?_, shallow, fits.add short fit, outerFits⟩
  · rw [marks, keeps.marks]
    exact (blanks_add bundle outer element).symm
  · rw [written, keeps.written]
    exact (layout_add bundle outer element).symm

theorem openBundle {time : TimeTag} (keeps : c.Keeps draft) (opened : openBundle time c = .ok done c') :
    c'.Keeps (draft.openBundle time) := by
  obtain ⟨room, depth, opened⟩ := openBundle_ok opened
  have start : bundleBytes time [] = (BundleDraft.mk time []).outline.bytes := by
    simp only [BundleDraft.outline, Outline.bytes, Outline.bodyBytes]
  by_cases outermost : c.depth = 0
  · rw [if_pos outermost] at opened
    obtain ⟨empty, marks, written⟩ := opened
    rw [outermost] at depth
    rw [keeps.written] at empty
    cases draft with
    | finished bundle => simp [Draft.bytes, BundleDraft.outline, Outline.bytes, bundleBytes, bundleTag] at empty
    | opened bundles =>
      have none : bundles = [] := List.length_eq_zero_iff.mp (keeps.depth.symm.trans outermost)
      subst none
      exact ⟨depth, marks.trans keeps.marks, written.trans start, show 1 ≤ maxBundleDepth by decide,
        BundleDraft.fits_empty time 1, trivial⟩
  · rw [if_neg outermost] at opened
    obtain ⟨marks, written⟩ := opened
    obtain ⟨bundle, outer, rfl⟩ := keeps.exists_open outermost
    obtain ⟨shallow, fits⟩ := keeps.fits
    have deeper : (bundle :: outer).length + 1 ≤ maxBundleDepth := by
      have : c.depth = (bundle :: outer).length := keeps.depth
      omega
    rw [keeps.depth] at depth
    refine ⟨depth, ?_, ?_, deeper, BundleDraft.fits_empty time _, fits⟩
    · rw [marks, keeps.marks, keeps.written]
      rfl
    · rw [written, keeps.written, start]
      rfl

theorem closeBundle (keeps : c.Keeps draft) (closed : closeBundle c = .ok done c') :
    c'.Keeps draft.close := by
  obtain ⟨positive, depth, marks, ended⟩ := closeBundle_ok closed
  obtain ⟨bundle, outer, rfl⟩ := keeps.exists_open positive
  obtain ⟨shallow, fits, outerFits⟩ := keeps.fits
  have written := keeps.written
  rw [keeps.depth] at depth
  rw [keeps.marks] at marks ended
  cases outer with
  | nil =>
    have same : c'.writer = c.writer := ended
    refine ⟨depth, marks, ?_, fits⟩
    rw [same, written]
    rfl
  | cons next outer =>
    obtain ⟨short, filled⟩ := (Writer.endElement_eq_ok written).mp ended
    have inner : bundle.outline.Fits (outer.length + 1) := fits.outline shallow
    refine ⟨depth, ?_, ?_, Nat.le_of_succ_le shallow, outerFits.1.add short inner, outerFits.2⟩
    · rw [marks]
      exact (blanks_add next outer bundle.outline).symm
    · rw [filled]
      exact (layout_add next outer bundle.outline).symm

/-- A request that succeeds does to the draft what it does to the composer. An element that is given as
bytes has to be a packet that may stand at its depth. -/
theorem serve {request : Request} (keeps : c.Keeps draft)
    (accepted : ∀ packet, request = .element packet → ∃ tree : PacketTree, tree.Valid ∧
      tree.bytes = packet ∧ c.depth + tree.depth ≤ maxBundleDepth)
    (served : serve request c = .ok done c') : c'.Keeps (draft.apply request) := by
  cases request with
  | openBundle time => exact keeps.openBundle served
  | closeBundle => exact keeps.closeBundle served
  | message path args =>
    refine keeps.append (fun w w' put => ?_) served
    obtain ⟨address, encodable, put⟩ := Writer.putMessage_eq_ok.mp put
    refine ⟨Outline.fits_message keeps.shallow address encodable, ?_⟩
    rw [(Writer.put_eq_ok.mp put).2, Outline.bytes]
  | element packet =>
    obtain ⟨tree, valid, rfl, shallow⟩ := accepted packet rfl
    refine keeps.append (fun w w' put => ⟨Outline.fits_packet valid shallow, ?_⟩) served
    rw [(Writer.put_eq_ok.mp put).2, Outline.bytes]

/-- What closing bundles does, as often as it is asked for. -/
theorem closeBundles {count : Nat} (keeps : c.Keeps draft) (closed : closeBundles count c = .ok done c') :
    c'.Keeps (Draft.close^[count] draft) := by
  induction count generalizing c draft with
  | zero =>
    obtain ⟨_, rfl⟩ := pure_eq_ok.mp closed
    exact keeps
  | succ count ih =>
    obtain ⟨_, next, first, rest⟩ := bind_eq_ok.mp closed
    exact ih (keeps.closeBundle first) rest

/-- What a run of requests keeps. -/
theorem observe (keeps : c.Keeps draft) (requests : List Request)
    (closed : ∀ made ∈ (c.observe requests).1, made.request = .closeBundle → made.succeeded = true)
    (accepted : ∀ made ∈ (c.observe requests).1, made.succeeded = true → ∀ packet,
      made.request = .element packet → ∃ tree : PacketTree, tree.Valid ∧ tree.bytes = packet ∧
        made.depth + tree.depth ≤ maxBundleDepth) :
    (c.observe requests).2.Keeps ((successes (c.observe requests).1).foldl Draft.apply draft) := by
  induction requests generalizing c draft with
  | nil => exact keeps
  | cons request requests ih =>
    cases served : Composer.serve request c with
    | ok done next =>
      simp only [Composer.observe, served, List.forall_mem_cons] at closed accepted ⊢
      exact ih (keeps.serve (accepted.1 trivial) served) closed.2 accepted.2
    | error e next =>
      simp only [Composer.observe, served, List.forall_mem_cons] at closed accepted ⊢
      have other : request ≠ .closeBundle := fun isClose => by cases closed.1 isClose
      exact ih (keeps.resumes (serve_error other served)) closed.2 accepted.2

end Keeps

theorem keeps_ofBuffer (buffer : List UInt8) : (ofBuffer buffer).Keeps (.opened []) :=
  ⟨rfl, rfl, rfl, Nat.zero_le _, trivial⟩

end Composer

/-! ### Finishing -/

namespace Draft

/-- A bundle has been opened. -/
def Started : Draft → Prop
  | opened bundles => bundles ≠ []
  | finished _ => True

theorem started_openBundle (draft : Draft) (time : TimeTag) : (draft.openBundle time).Started := by
  cases draft with
  | opened bundles => exact List.cons_ne_nil _ _
  | finished bundle => trivial

theorem Started.close {draft : Draft} (started : draft.Started) : draft.close.Started := by
  match draft with
  | finished bundle => trivial
  | opened [] => exact started
  | opened [bundle] => trivial
  | opened (bundle :: next :: outer) => exact List.cons_ne_nil _ _

theorem Started.apply {draft : Draft} (started : draft.Started) (request : Composer.Request) :
    (draft.apply request).Started := by
  have add (element : Outline) : (draft.add element).Started := by
    match draft with
    | finished bundle => trivial
    | opened [] => exact started
    | opened (bundle :: outer) => exact List.cons_ne_nil _ _
  cases request with
  | openBundle time => exact draft.started_openBundle time
  | message path args => exact add _
  | element packet => exact add _
  | closeBundle => exact started.close

theorem started_of_mem {draft : Draft} {requests : List Composer.Request}
    (started : draft.Started ∨ ∃ time, .openBundle time ∈ requests) :
    (requests.foldl apply draft).Started := by
  induction requests generalizing draft with
  | nil =>
    rcases started with started | ⟨time, member⟩
    · exact started
    · cases member
  | cons request requests ih =>
    refine ih ?_
    rcases started with started | ⟨time, member⟩
    · exact .inl (started.apply request)
    · rcases List.mem_cons.mp member with rfl | member
      · exact .inl (draft.started_openBundle time)
      · exact .inr ⟨time, member⟩

theorem length_close (draft : Draft) : draft.close.bundles.length = draft.bundles.length - 1 := by
  match draft with
  | finished bundle => rfl
  | opened [] => rfl
  | opened [bundle] => rfl
  | opened (bundle :: next :: outer) => rfl

/-- Once all bundles are closed, the outermost one is finished. -/
theorem Started.finishes {draft : Draft} (started : draft.Started) {count : Nat}
    (all : draft.bundles.length = count) : ∃ bundle, Draft.close^[count] draft = finished bundle := by
  induction count generalizing draft with
  | zero =>
    match draft with
    | finished bundle => exact ⟨bundle, rfl⟩
    | opened bundles => exact absurd (List.length_eq_zero_iff.mp all) started
  | succ count ih =>
    refine ih started.close ?_
    rw [draft.length_close, all]
    rfl

end Draft

namespace Composer

theorem finish_eq_ok {c last : Composer} {length : Nat} :
    finish c = .ok length last ↔ closeBundles c.depth c = .ok () last ∧ last.writer.position = length := by
  simp only [finish, bind_eq_ok, get_eq_ok, pure_eq_ok]
  constructor
  · rintro ⟨_, _, ⟨rfl, rfl⟩, _, _, closed, _, _, ⟨rfl, rfl⟩, rfl, rfl⟩
    exact ⟨closed, rfl⟩
  · rintro ⟨closed, rfl⟩
    exact ⟨c, c, ⟨rfl, rfl⟩, (), last, closed, last, last, ⟨rfl, rfl⟩, rfl, rfl⟩

/-- What a composer has written once it has finished. -/
theorem Keeps.finish {c last : Composer} {draft : Draft} {length : Nat} (keeps : c.Keeps draft)
    (started : draft.Started) (finished : Composer.finish c = .ok length last) :
    ∃ bundle : BundleDraft, draft.finish = some bundle.outline ∧ bundle.Fits 1 ∧
      last.writer.buffer.take length = bundle.outline.bytes := by
  obtain ⟨closed, rfl⟩ := finish_eq_ok.mp finished
  obtain ⟨bundle, whole⟩ := started.finishes rfl
  have kept := keeps.closeBundles closed
  rw [keeps.depth, whole] at kept
  refine ⟨bundle, ?_, kept.fits, ?_⟩
  · rw [Draft.finish, whole]
  · rw [Writer.buffer, Writer.position, List.take_left]
    exact kept.written

/-- Whatever was asked for in between, with a bundle opened, no failure to close one, and only packets
that fit their depth given as bytes: what stands in the buffer in the end depends on the requests that
succeeded alone. It parses, and as the very tree that they describe. -/
theorem finish_outline (buffer : List UInt8) (requests : List Request) {length : Nat} {last : Composer}
    (opened : ∃ made ∈ ((ofBuffer buffer).observe requests).1, made.succeeded = true ∧
      ∃ time, made.request = .openBundle time)
    (closed : ∀ made ∈ ((ofBuffer buffer).observe requests).1,
      made.request = .closeBundle → made.succeeded = true)
    (accepted : ∀ made ∈ ((ofBuffer buffer).observe requests).1, made.succeeded = true → ∀ packet,
      made.request = .element packet → ∃ tree : PacketTree, tree.Valid ∧ tree.bytes = packet ∧
        made.depth + tree.depth ≤ maxBundleDepth)
    (finished : finish ((ofBuffer buffer).observe requests).2 = .ok length last) :
    ∃ outline b elements,
      (Draft.ofRequests (successes ((ofBuffer buffer).observe requests).1)).finish = some outline ∧
        last.writer.buffer.take length = outline.bytes ∧
        Bundle.parse (last.writer.buffer.take length) = .ok b ∧
        (PacketTree.bundle b.time elements).Valid ∧
        (PacketTree.bundle b.time elements).bytes = last.writer.buffer.take length ∧
        (∀ other : PacketTree, other.Valid → other.bytes = last.writer.buffer.take length →
          other = .bundle b.time elements) ∧
        outline.Describes (.bundle b.time elements) := by
  have keeps := (keeps_ofBuffer buffer).observe requests closed accepted
  have started : (Draft.ofRequests (successes ((ofBuffer buffer).observe requests).1)).Started := by
    obtain ⟨made, member, succeeded, time, request⟩ := opened
    refine Draft.started_of_mem (.inr ⟨time, ?_⟩)
    rw [← request]
    exact List.mem_map_of_mem (List.mem_filter.mpr ⟨member, succeeded⟩)
  obtain ⟨bundle, outlined, fits, written⟩ := keeps.finish started finished
  obtain ⟨tree, described, valid, same, shallow⟩ := BundleDraft.Fits.outline fits (by decide)
  rw [written]
  cases described with
  | @bundle time elements trees each =>
    rw [Nat.zero_add] at shallow
    refine ⟨_, ⟨bundle.outline.bytes, bundle.time⟩, trees, outlined, rfl, ?_, valid, same, ?_, .bundle each⟩
    · exact Bundle.parse_eq_ok.mpr ⟨_, trees, valid, shallow, same, rfl⟩
    · intro other valid' same'
      exact PacketTree.bytes_inj valid' valid (same'.trans same.symm)

/-- A bundle whose room ends between the length word and the header of a second nested one. -/
theorem finish_outline_cramped :
    let element : List UInt8 := [0x2F, 0x62, 0, 0, 0x2C, 0, 0, 0]
    let run := (ofBuffer (List.replicate 80 0xFF)).observe [.message "/x" [], .openBundle ⟨1⟩,
      .message "/a" [.int 1], .openBundle ⟨2⟩, .element element, .message "a" [], .closeBundle,
      .openBundle ⟨3⟩]
    ∃ last outline b elements, finish run.2 = .ok 64 last ∧
      (Draft.ofRequests [.openBundle ⟨1⟩, .message "/a" [.int 1], .openBundle ⟨2⟩, .element element,
        .closeBundle]).finish = some outline ∧
      Bundle.parse (last.writer.buffer.take 64) = .ok b ∧ outline.Describes (.bundle b.time elements) := by
  intro element run
  have made : run.1 = [⟨.message "/x" [], 0, false⟩, ⟨.openBundle ⟨1⟩, 0, true⟩,
      ⟨.message "/a" [.int 1], 1, true⟩, ⟨.openBundle ⟨2⟩, 1, true⟩, ⟨.element element, 2, true⟩,
      ⟨.message "a" [], 2, false⟩, ⟨.closeBundle, 2, true⟩, ⟨.openBundle ⟨3⟩, 1, false⟩] := by
    decide +kernel
  have parses : ((Message.parse element).toOption.isSome) = true := by decide +kernel
  obtain ⟨last, finished⟩ : ∃ last, finish run.2 = .ok 64 last := by
    have counted : (match finish run.2 with | .ok length _ => length | .error _ _ => 0) = 64 := by
      decide +kernel
    cases finished : finish run.2 with
    | ok length last =>
      simp only [finished] at counted
      exact ⟨last, congrArg (EStateM.Result.ok · last) counted⟩
    | error e last =>
      simp only [finished] at counted
      cases counted
  have accepted : ∀ made ∈ run.1, made.succeeded = true → ∀ packet, made.request = .element packet →
      ∃ tree : PacketTree, tree.Valid ∧ tree.bytes = packet ∧ made.depth + tree.depth ≤ maxBundleDepth := by
    rw [made]
    intro made member _ packet isElement
    cases parsed : Message.parse element with
    | error e =>
      rw [parsed] at parses
      cases parses
    | ok m =>
      obtain ⟨valid, whole⟩ := PacketTree.message_of_parse parsed
      simp only [List.mem_cons, List.not_mem_nil, or_false] at member
      rcases member with rfl | rfl | rfl | rfl | rfl | rfl | rfl | rfl <;> cases isElement
      exact ⟨.message m, valid, whole, show 2 + 0 ≤ maxBundleDepth by decide⟩
  have opened : ∃ made ∈ run.1, made.succeeded = true ∧ ∃ time, made.request = .openBundle time := by
    rw [made]
    exact ⟨⟨.openBundle ⟨1⟩, 0, true⟩, by simp, rfl, ⟨1⟩, rfl⟩
  have closed : ∀ made ∈ run.1, made.request = .closeBundle → made.succeeded = true := by
    rw [made]
    decide
  obtain ⟨outline, b, elements, outlined, _, parsed, _, _, _, described⟩ :=
    finish_outline (List.replicate 80 0xFF) _ opened closed accepted finished
  refine ⟨last, outline, b, elements, finished, ?_, parsed, described⟩
  rw [made] at outlined
  exact outlined

end Composer

end OscHost
