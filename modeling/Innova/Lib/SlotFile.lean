import Mathlib.Data.List.Induction
import Mathlib.Tactic.Common

/-! Files of fixed-size entries behind a header, and bounded windows over them. A window
answers for the first `count` entries of its file: the newest from a ring, others from a cache of
recent reads, the rest by reading the file. -/
namespace Innova.Lib

/-- An entry whose bytes do not decode is `none`. -/
structure SlotFile (α : Type) where
  /-- The header is whole. -/
  header : Bool
  slots : List (Option α)
  /-- Some bytes of a further entry follow. -/
  torn : Bool
deriving DecidableEq

namespace SlotFile
variable {α : Type} {f : SlotFile α} {xs : List α}

/-- A file that ends with a whole entry. -/
def whole (slots : List (Option α)) : SlotFile α := ⟨true, slots, false⟩

/-- The whole entries behind the header, as far as the file's size gives them. -/
def body (f : SlotFile α) : List (Option α) := if f.header then f.slots else []

/-- The file is shorter than `n` entries need. -/
def short (f : SlotFile α) (n : Nat) : Bool := !f.header || f.slots.length < n

def cut (f : SlotFile α) (n : Nat) : SlotFile α := { f with slots := f.slots.take n, torn := false }

/-- The file with whole entries written at its end. -/
def grown (f : SlotFile α) (new : List α) : SlotFile α := { f with slots := f.slots ++ new.map some }

/-- Reads one entry at its position. -/
def read (f : SlotFile α) (i : Nat) : Option α := (f.body[i]?).join

/-- The values up to the first that is missing. -/
def somes : List (Option α) → List α
  | some x :: rest => x :: somes rest
  | _ => []

/-- The entries a pass over the first `n` visits before one it cannot read. -/
def visited (f : SlotFile α) (n : Nat) : List α := somes ((List.range n).map f.read)

/-- The file starts with these entries. -/
def Holds (f : SlotFile α) (xs : List α) : Prop := ∀ i x, xs[i]? = some x → f.read i = some x

/-- The first `n` entries can be read. -/
def Readable (n : Nat) (f : SlotFile α) : Prop := ∀ i < n, (f.read i).isSome

/-- What there is of the first `n` entries can be read. -/
def Legible (n : Nat) (f : SlotFile α) : Prop := ∀ i < n, i < f.body.length → (f.read i).isSome

theorem short_eq_false : f.short n = false ↔ f.header = true ∧ n ≤ f.slots.length := by simp [short]

theorem Legible.readable (legible : f.Legible n) (long : f.short n = false) : f.Readable n := by
  rw [short_eq_false] at long
  intro i below
  refine legible i below ?_
  rw [body, if_pos long.1]
  omega

theorem Readable.long (readable : f.Readable n) : n ≤ f.body.length := by
  by_contra shorter
  have last := readable f.body.length (by omega)
  rw [read, List.getElem?_eq_none (Nat.le_refl _)] at last
  cases last

theorem holds_whole (xs : List α) (rest : List (Option α)) : (whole (xs.map some ++ rest)).Holds xs := by
  intro i x found
  have inside := (List.getElem?_eq_some_iff.mp found).1
  rw [read, whole, body, if_pos rfl, List.getElem?_append_left (by simpa using inside), List.getElem?_map, found]
  rfl

theorem Holds.read (holds : f.Holds xs) (inside : i < xs.length) : f.read i = xs[i]? := by
  rw [holds i _ (List.getElem?_eq_getElem inside), List.getElem?_eq_getElem inside]

theorem somes_map (xs : List α) : somes (xs.map some) = xs := by
  induction xs with
  | nil => rfl
  | cons x xs ih => rw [List.map_cons, somes, ih]

theorem map_somes (read : List (Option α)) (complete : (somes read).length = read.length) :
    (somes read).map some = read := by
  induction read with
  | nil => rfl
  | cons entry rest ih =>
    match entry, complete with
    | some x, complete =>
      rw [somes, List.length_cons, List.length_cons] at complete
      rw [somes, List.map_cons, ih (by omega)]

theorem body_whole (slots : List (Option α)) : (whole slots).body = slots := rfl

theorem body_cut (f : SlotFile α) (n : Nat) : (f.cut n).body = f.body.take n := by
  unfold body cut
  split <;> simp

theorem read_cut (below : i < n) : (f.cut n).read i = f.read i := by
  rw [read, read, body_cut, List.getElem?_take_of_lt below]

/-- The first `n` entries, with `new` written behind them. -/
theorem read_cut_grown (long : f.short n = false) (new : List α) (i : Nat) :
    ((f.cut n).grown new).read i = if i < n then f.read i else new[i - n]? := by
  rw [short_eq_false] at long
  simp only [read, body, grown, cut, long.1, if_true]
  have taken : (f.slots.take n).length = n := by rw [List.length_take]; omega
  split
  · next old => rw [List.getElem?_append_left (by omega), List.getElem?_take_of_lt old]
  · next fresh => rw [List.getElem?_append_right (by omega), taken, List.getElem?_map]; cases new[i - n]? <;> rfl

theorem visited_congr {g : SlotFile α} (same : ∀ i < n, f.read i = g.read i) : f.visited n = g.visited n := by
  unfold visited
  rw [List.map_congr_left fun i member => same i (List.mem_range.mp member)]

/-- Entries that can be read lie in the file. -/
theorem Holds.length_le (holds : f.Holds xs) : xs.length ≤ f.body.length := by
  by_contra shorter
  have last := holds _ _ (List.getElem?_eq_getElem (show f.body.length < xs.length by omega))
  rw [SlotFile.read, List.getElem?_eq_none (Nat.le_refl _)] at last
  cases last

/-- What a complete pass visits is what the file starts with. -/
theorem holds_visited (complete : (f.visited n).length = n) : f.Holds (f.visited n) := by
  intro i x found
  have inside := (List.getElem?_eq_some_iff.mp found).1
  have all : (f.visited n).map some = (List.range n).map f.read :=
    map_somes _ (by rw [List.length_map, List.length_range]; exact complete)
  have entry := congrArg (fun read => read[i]?) all
  rw [List.getElem?_map, found, List.getElem?_map, List.getElem?_range (by omega)] at entry
  exact (Option.some.inj entry).symm

theorem readable_visited (complete : (f.visited n).length = n) : f.Readable n := by
  intro i below
  have inside : i < (f.visited n).length := by omega
  rw [holds_visited complete i _ (List.getElem?_eq_getElem inside)]
  rfl

theorem Readable.mono (readable : f.Readable m) (fewer : n ≤ m) : f.Readable n :=
  fun i below => readable i (by omega)

theorem Readable.legible (readable : f.Readable n) : f.Legible n := fun i below _ => readable i below

theorem readable_whole {slots : List (Option α)} (all : ∀ entry ∈ slots, entry.isSome) (enough : n ≤ slots.length) :
    (whole slots).Readable n := by
  intro i below
  rw [read, body_whole, List.getElem?_eq_getElem (by omega)]
  exact all _ (List.getElem_mem _)

theorem body_grown (f : SlotFile α) (new : List α) :
    (f.grown new).body = if f.header then f.body ++ new.map some else [] := by
  unfold body grown
  split <;> rfl

theorem read_grown (inside : i < f.body.length) : (f.grown new).read i = f.read i := by
  rw [read, read, body_grown]
  split
  · rw [List.getElem?_append_left inside]
  · next headless => simp [body, headless] at inside

theorem Readable.cut (readable : f.Readable n) (enough : n ≤ m) : (f.cut m).Readable n := by
  intro i below
  rw [read_cut (by omega)]
  exact readable i below

theorem Readable.grown (readable : f.Readable n) (new : List α) : (f.grown new).Readable n := by
  intro i below
  have long := readable.long
  rw [read_grown (by omega)]
  exact readable i below

/-- New entries behind the first `n` can be read like them. -/
theorem Readable.published (readable : f.Readable n) (long : f.short n = false) (new : List α) :
    ((f.cut n).grown new).Readable (n + new.length) := by
  intro i below
  rw [read_cut_grown long]
  split
  · next old => exact readable i old
  · rw [List.getElem?_eq_getElem (by omega)]
    rfl

theorem Legible.cut (legible : f.Legible n) (m : Nat) : (f.cut m).Legible n := by
  intro i below inside
  rw [body_cut, List.length_take] at inside
  rw [read_cut (by omega)]
  exact legible i below (by omega)

theorem Legible.grown (legible : f.Legible n) (new : List α) : (f.grown new).Legible n := by
  intro i below inside
  by_cases old : i < f.body.length
  · rw [read_grown old]
    exact legible i below old
  · rw [body_grown] at inside
    rw [read, body_grown]
    split at inside
    · next headed =>
      rw [List.length_append, List.length_map] at inside
      rw [if_pos headed, List.getElem?_append_right (by omega), List.getElem?_map, List.getElem?_eq_getElem (by omega)]
      rfl
    · cases inside

/-- The first entries of a file, with new ones behind them. -/
theorem read_spliced (long : k ≤ f.body.length) (new : List α) (i : Nat) :
    (whole (f.body.take k ++ new.map some)).read i = if i < k then f.read i else new[i - k]? := by
  have taken : (f.body.take k).length = k := by rw [List.length_take]; omega
  rw [read, body_whole]
  split
  · next old => rw [List.getElem?_append_left (by omega), List.getElem?_take_of_lt old, read]
  · next fresh =>
    rw [List.getElem?_append_right (by omega), taken, List.getElem?_map]
    cases new[i - k]? <;> rfl

theorem Legible.spliced (legible : f.Legible n) (k : Nat) (new : List α) :
    (whole (f.body.take k ++ new.map some)).Legible n := by
  intro i below inside
  rw [body_whole, List.length_append, List.length_map] at inside
  rw [read, body_whole]
  by_cases old : i < (f.body.take k).length
  · have within := old
    rw [List.length_take] at within
    rw [List.getElem?_append_left old, List.getElem?_take_of_lt (by omega)]
    exact legible i below (by omega)
  · rw [List.getElem?_append_right (by omega), List.getElem?_map, List.getElem?_eq_getElem (by omega)]
    rfl

/-- `g` starts with the first `n` entries of `f`. -/
def Extends (n : Nat) (f g : SlotFile α) : Prop := g.header = f.header ∧ ∃ rest, g.slots = f.slots.take n ++ rest

theorem extends_self : Extends n f f := ⟨rfl, f.slots.drop n, (List.take_append_drop n f.slots).symm⟩

theorem Extends.cut (starts : Extends n f g) (long : n ≤ f.slots.length) : Extends n f (g.cut n) := by
  obtain ⟨header, rest, slots⟩ := starts
  refine ⟨header, [], ?_⟩
  have taken : (f.slots.take n).length = n := by rw [List.length_take]; omega
  rw [SlotFile.cut, slots, List.append_nil, List.take_append_of_le_length (by omega), List.take_take, Nat.min_self]

theorem Extends.grown (starts : Extends n f g) (new : List α) : Extends n f (g.grown new) := by
  obtain ⟨header, rest, slots⟩ := starts
  exact ⟨header, rest ++ new.map some, by rw [SlotFile.grown, slots, List.append_assoc]⟩

theorem Extends.read (starts : Extends n f g) (long : n ≤ f.slots.length) (below : i < n) : g.read i = f.read i := by
  obtain ⟨header, rest, slots⟩ := starts
  unfold SlotFile.read body
  rw [header, slots]
  split
  · rw [List.getElem?_append_left (by rw [List.length_take]; omega), List.getElem?_take_of_lt below]
  · rfl

end SlotFile

/-- A window answers for the first `count` entries of a file. -/
structure Window (α : Type) where
  count : Nat
  /-- The first entry in the ring. -/
  ringBase : Nat
  ring : List α
  /-- Entries read lately, the last read first. -/
  recent : List (Nat × α)
deriving DecidableEq

namespace Window
variable {α : Type} {w : Window α} {f : SlotFile α} {xs ys : List α}

/-- Entries answered without the file. -/
def cached (w : Window α) (slot : Nat) : Option α :=
  (if w.ringBase ≤ slot then w.ring[slot - w.ringBase]? else none).or (w.recent.lookup slot)

def get (w : Window α) (f : SlotFile α) (slot : Nat) : Option α :=
  if slot < w.count then (w.cached slot).or (f.read slot) else none

/-- The window after a `get`: what the ring does not hold becomes the most recent read. -/
def touch (cap : Nat) (w : Window α) (f : SlotFile α) (slot : Nat) : Window α :=
  if slot < w.count ∧ ¬(w.ringBase ≤ slot ∧ slot - w.ringBase < w.ring.length) then
    match (w.recent.lookup slot).or (f.read slot) with
    | some x => { w with recent := ((slot, x) :: w.recent.filter (·.1 ≠ slot)).take cap }
    | none => w
  else w

/-- A window over a file as it is opened: the newest entries fill the ring. -/
def initCount (ringCap : Nat) (f : SlotFile α) (n : Nat) : Option (Window α) :=
  let first := n - min n ringCap
  let ring := SlotFile.somes ((List.range' first (n - first)).map f.read)
  if ring.length = n - first then some ⟨n, first, ring, []⟩ else none

/-- The window after the file was replaced: nothing is cached. -/
def setCount (n : Nat) : Window α := ⟨n, n, [], []⟩

def pushBack (ringCap : Nat) (w : Window α) (x : α) : Window α :=
  if ringCap < (w.ring ++ [x]).length then
    { w with count := w.count + 1, ringBase := w.ringBase + 1, ring := (w.ring ++ [x]).tail }
  else { w with count := w.count + 1, ring := w.ring ++ [x] }

def pushAll (ringCap : Nat) (w : Window α) (xs : List α) : Window α := xs.foldl (pushBack ringCap) w

/-- Drops the last entries again. -/
def popTo (w : Window α) (n : Nat) : Window α :=
  if n < w.count then
    { w with
      count := n
      ring := w.ring.take (n - w.ringBase)
      ringBase := if w.ring.take (n - w.ringBase) = [] then n else w.ringBase }
  else w

theorem get_readable (readable : f.Readable w.count) (inside : slot < w.count) : ∃ x, w.get f slot = some x := by
  obtain ⟨x, read⟩ := Option.isSome_iff_exists.mp (readable slot inside)
  rw [get, if_pos inside, read]
  cases w.cached slot with
  | none => exact ⟨x, rfl⟩
  | some y => exact ⟨y, rfl⟩

theorem lt_of_get (found : w.get f slot = some x) : slot < w.count := by
  rw [get] at found
  split at found
  · next inside => exact inside
  · cases found

/-- A window without a cache answers from its file. -/
theorem get_setCount (n slot : Nat) : (setCount n).get f slot = if slot < n then f.read slot else none := by
  have uncached : (setCount n : Window α).cached slot = none := by simp [setCount, cached]
  rw [get, uncached]
  rfl

theorem initCount_congr (same : ∀ i < n, f.read i = g.read i) : initCount ringCap f n = initCount ringCap g n := by
  have reads : (List.range' (n - min n ringCap) (n - (n - min n ringCap))).map f.read =
      (List.range' (n - min n ringCap) (n - (n - min n ringCap))).map g.read := by
    apply List.map_congr_left
    intro i member
    rw [List.mem_range'_1] at member
    exact same i (by omega)
  rw [initCount, initCount, reads]

theorem get_congr (same : ∀ i < w.count, f.read i = g.read i) (slot : Nat) : w.get f slot = w.get g slot := by
  unfold get
  split
  · next inside => rw [same slot inside]
  · rfl

/-- A window over a file that starts with `xs` answers with them. -/
structure Serves (w : Window α) (f : SlotFile α) (xs : List α) : Prop where
  count : w.count = xs.length
  file : f.Holds xs
  top : w.ringBase + w.ring.length = w.count
  ring : ∀ i x, w.ring[i]? = some x → xs[w.ringBase + i]? = some x
  recent : ∀ slot x, w.recent.lookup slot = some x → xs[slot]? = some x

section Serves
variable (serves : w.Serves f xs)
include serves

theorem Serves.cached (hit : w.cached slot = some x) : xs[slot]? = some x := by
  rw [Window.cached, Option.or_eq_some_iff] at hit
  rcases hit with ring | ⟨-, recent⟩
  · split at ring
    · next above =>
      have entry := serves.ring _ _ ring
      rwa [Nat.add_sub_cancel' above] at entry
    · cases ring
  · exact serves.recent _ _ recent

theorem Serves.get (slot : Nat) : w.get f slot = xs[slot]? := by
  rw [Window.get, serves.count]
  split
  · next inside =>
    cases hit : w.cached slot with
    | some x => rw [Option.some_or, serves.cached hit]
    | none => rw [Option.none_or, serves.file.read inside]
  · next outside => rw [List.getElem?_eq_none (by omega)]

end Serves

/-- The answers of a window, in order. -/
theorem Serves.filterMap_get (serves : w.Serves f xs) : (List.range w.count).filterMap (w.get f) = xs := by
  have entries : (List.range w.count).map (w.get f) = xs.map some := by
    apply List.ext_getElem (by simp [serves.count])
    intro i _ _
    simp [serves.get]
  calc (List.range w.count).filterMap (w.get f)
      = ((List.range w.count).map (w.get f)).filterMap id := by rw [List.filterMap_map]; rfl
    _ = xs := by rw [entries]; simp

theorem serves_setCount (holds : f.Holds xs) : (setCount xs.length).Serves f xs where
  count := rfl
  file := holds
  top := rfl
  ring := by simp [setCount]
  recent := by simp [setCount]

theorem serves_initCount (opened : initCount ringCap f n = some w) (holds : f.Holds xs) (length : xs.length = n) :
    w.Serves f xs := by
  rw [initCount] at opened
  split at opened
  · next complete =>
    cases opened
    have all := SlotFile.map_somes ((List.range' (n - min n ringCap) (n - (n - min n ringCap))).map f.read)
      (by simpa using complete)
    exact {
      count := length.symm
      file := holds
      top := by dsimp only; omega
      ring := fun i x found => by
        dsimp only at found ⊢
        have inside := (List.getElem?_eq_some_iff.mp found).1
        have entry := congrArg (fun read => read[i]?) all
        rw [List.getElem?_map, found, List.getElem?_map, List.getElem?_range' (by omega)] at entry
        have read : f.read (n - min n ringCap + i) = some x := by simpa using entry.symm
        rw [← holds.read (by omega)]
        exact read
      recent := by simp }
  · cases opened

/-! ### Windows that grow

What a window caches may be out of date when its file was changed behind it, so the next lemmas
say what a window answers after new entries without asking that it serves its file. -/

/-- The ring is the newest of the counted entries, and only counted entries are cached. -/
structure Shaped (ringCap : Nat) (w : Window α) : Prop where
  top : w.ringBase + w.ring.length = w.count
  fits : w.ring.length ≤ ringCap
  recent : ∀ slot x, w.recent.lookup slot = some x → slot < w.count

/-- The window as it is left when `n` new entries pushed old ones out of the ring. -/
def shed (ringCap n : Nat) (w : Window α) : Window α :=
  { w with
    ringBase := w.ringBase + min (w.ring.length + n - ringCap) w.ring.length
    ring := w.ring.drop (w.ring.length + n - ringCap) }

variable {ringCap : Nat}

@[simp] theorem count_shed (n : Nat) : (w.shed ringCap n).count = w.count := rfl

theorem shaped_setCount (n : Nat) : (setCount n : Window α).Shaped ringCap where
  top := rfl
  fits := Nat.zero_le _
  recent := by simp [setCount]

theorem pushAll_eq (fits : w.ring.length ≤ ringCap) (ys : List α) : w.pushAll ringCap ys = { w with
      count := w.count + ys.length
      ringBase := w.ringBase + (w.ring.length + ys.length - ringCap)
      ring := (w.ring ++ ys).drop (w.ring.length + ys.length - ringCap) } := by
  induction ys using List.reverseRecOn with
  | nil => simp [pushAll, Nat.sub_eq_zero_of_le fits]
  | append_singleton ys y ih =>
    have step : w.pushAll ringCap (ys ++ [y]) = (w.pushAll ringCap ys).pushBack ringCap y := by simp [pushAll]
    have joined : ((w.ring ++ ys).drop (w.ring.length + ys.length - ringCap)) ++ [y] =
        (w.ring ++ (ys ++ [y])).drop (w.ring.length + ys.length - ringCap) := by
      have within : w.ring.length + ys.length - ringCap - (w.ring ++ ys).length = 0 := by
        rw [List.length_append]
        omega
      conv_rhs => rw [← List.append_assoc, List.drop_append, within, List.drop_zero]
    rw [step, ih, pushBack, joined, List.length_drop, List.length_append, List.length_append, List.length_singleton]
    by_cases full : ringCap ≤ w.ring.length + ys.length
    · have more : w.ring.length + (ys.length + 1) - ringCap = w.ring.length + ys.length - ringCap + 1 := by omega
      rw [if_pos (by omega), more, ← List.drop_one, List.drop_drop]
      rfl
    · rw [if_neg (by omega), Nat.sub_eq_zero_of_le (by omega), Nat.sub_eq_zero_of_le (by omega)]
      rfl

section Shaped
variable (shaped : w.Shaped ringCap) (ys : List α)
include shaped

theorem Shaped.pushAll : (w.pushAll ringCap ys).Shaped ringCap := by
  rw [pushAll_eq shaped.fits]
  refine ⟨?_, ?_, fun slot x found => ?_⟩
  · have top := shaped.top
    simp only [List.length_drop, List.length_append]
    omega
  · simp only [List.length_drop, List.length_append]
    omega
  · have below := shaped.recent slot x found
    simp only
    omega

theorem Shaped.shed (n : Nat) : (w.shed ringCap n).Shaped ringCap := by
  refine ⟨?_, ?_, shaped.recent⟩
  · have top := shaped.top
    simp only [Window.shed, List.length_drop]
    omega
  · simp only [Window.shed, List.length_drop]
    omega

/-- A failed publication leaves the window without the entries it had pushed out. -/
theorem Shaped.popTo_pushAll : (w.pushAll ringCap ys).popTo w.count = w.shed ringCap ys.length := by
  have top := shaped.top
  by_cases new : ys = []
  · subst new
    have fits : w.ring.length - ringCap = 0 := Nat.sub_eq_zero_of_le shaped.fits
    simp [Window.pushAll, popTo, Window.shed, fits]
  have room : 0 < ys.length := List.length_pos_iff.mpr new
  have kept : ((w.ring ++ ys).drop (w.ring.length + ys.length - ringCap)).take
      (w.count - (w.ringBase + (w.ring.length + ys.length - ringCap))) = w.ring.drop
        (w.ring.length + ys.length - ringCap) := by
    rw [show w.count - (w.ringBase + (w.ring.length + ys.length - ringCap)) =
      w.ring.length - (w.ring.length + ys.length - ringCap) by omega, ← List.drop_take, List.take_left]
  rw [pushAll_eq shaped.fits, popTo, if_pos (show w.count < w.count + ys.length by omega), kept, Window.shed]
  by_cases empty : w.ring.length ≤ w.ring.length + ys.length - ringCap
  · rw [if_pos (List.drop_eq_nil_of_le empty), Nat.min_eq_right empty, top]
  · rw [if_neg (by simpa using empty), Nat.min_eq_left (by omega)]

/-- What the window answers for an old entry after new ones. -/
theorem Shaped.get_pushAll_old (old : slot < w.count) (same : g.read slot = f.read slot) :
    (w.pushAll ringCap ys).get g slot = (w.shed ringCap ys.length).get f slot := by
  have top := shaped.top
  have cached : (w.pushAll ringCap ys).cached slot = (w.shed ringCap ys.length).cached slot := by
    rw [pushAll_eq shaped.fits]
    unfold Window.cached Window.shed
    dsimp only
    by_cases within : w.ringBase + (w.ring.length + ys.length - ringCap) ≤ slot
    · rw [if_pos within, if_pos (by omega), Nat.min_eq_left (by omega), List.getElem?_drop, List.getElem?_drop,
        List.getElem?_append_left (by omega)]
    · rw [if_neg within, if_neg (by omega)]
  rw [Window.get, Window.get, cached, same, pushAll_eq shaped.fits, if_pos (show slot < w.count + ys.length by omega),
    if_pos (show slot < (w.shed ringCap ys.length).count from old)]

/-- What the window answers for a new entry. -/
theorem Shaped.get_pushAll_new (inside : k < ys.length) (written : g.read (w.count + k) = ys[k]?) :
    (w.pushAll ringCap ys).get g (w.count + k) = ys[k]? := by
  have top := shaped.top
  have missing : w.recent.lookup (w.count + k) = none := by
    by_contra found
    obtain ⟨x, found⟩ := Option.ne_none_iff_exists'.mp found
    exact absurd (shaped.recent _ _ found) (by omega)
  rw [Window.get, Window.cached, pushAll_eq shaped.fits,
    if_pos (show w.count + k < w.count + ys.length by omega), written]
  simp only [missing, Option.or_none]
  by_cases within : w.ringBase + (w.ring.length + ys.length - ringCap) ≤ w.count + k
  · have place : w.ring.length + ys.length - ringCap +
        (w.count + k - (w.ringBase + (w.ring.length + ys.length - ringCap))) - w.ring.length = k := by omega
    rw [if_pos within, List.getElem?_drop, List.getElem?_append_right (by omega), place, Option.or_self]
  · rw [if_neg within, Option.none_or]

/-- What a window answers when new entries were written behind the counted ones. -/
theorem Shaped.get_pushAll (long : f.short w.count = false) (slot : Nat) :
    (w.pushAll ringCap ys).get ((f.cut w.count).grown ys) slot =
      if slot < w.count then (w.shed ringCap ys.length).get f slot else ys[slot - w.count]? := by
  have reads := SlotFile.read_cut_grown long ys
  split
  · next old => exact shaped.get_pushAll_old ys old (by rw [reads, if_pos old])
  · next fresh =>
    obtain ⟨k, rfl⟩ : ∃ k, slot = w.count + k := ⟨slot - w.count, by omega⟩
    rw [Nat.add_sub_cancel_left]
    by_cases inside : k < ys.length
    · exact shaped.get_pushAll_new ys inside (by rw [reads, if_neg fresh, Nat.add_sub_cancel_left])
    · rw [List.getElem?_eq_none (by omega), pushAll_eq shaped.fits, Window.get, if_neg (by dsimp only; omega)]

end Shaped

end Window
end Innova.Lib
