import Immediate.Proofs.Editing.Frames
import Immediate.Proofs.Evaluation
import Immediate.Proofs.PathCode
import Immediate.Proofs.Stores
/-! The keys that a path names. They are keys of maps that are stored, or what indices evaluate to,
cast to the key type of a map; so maps in them keep their keys apart, as all values do. -/
namespace Immediate

open Edit Outcome Value

/-- Keys are apart in what every variable holds. -/
def Store.Keyed (s : Store) : Prop := ∀ id t, s.find? id = some t → SlotKeyed t.slot

/-- Keys are apart in the constants of a path. -/
def Path.Keyed (p : Path) : Prop := ∀ a ∈ p.accessors, ∀ code ∈ a.codes, code.Keyed

/-- Keys are apart in every value. -/
def Evaluated.Keyed (evaluated : Evaluated) : Prop := ∀ slot ∈ evaluated.values, SlotKeyed slot

/-- Keys are apart in the index of every selector. -/
def Selectors.Keyed (selectors : Selectors) : Prop :=
  ∀ selector ∈ selectors.each, SlotKeyed selector.index?

theorem Store.Keyed.context {s : Store} (keyed : s.Keyed) (world : World) : (s.context world).Keyed := by
  intro id slot held
  obtain ⟨t, found, rfl⟩ := Option.map_eq_some_iff.mp held
  exact keyed id t found

theorem Store.Keyed.put {s : Store} (keyed : s.Keyed) (id : VariableId) {t : TypedValue}
    (own : SlotKeyed t.slot) : (s.put id t).Keyed := by
  intro other u held
  by_cases same : other = id
  · rw [same, find?_put_self] at held
    cases held
    exact own
  · rw [find?_put_of_ne s t same] at held
    exact keyed other u held

theorem keyed_mapKey {keyTy : Option Ty} {index key : Value} (keyed : index.Keyed)
    (named : mapKey keyTy index = .ok key) : key.Keyed := by
  cases keyTy with
  | none =>
    cases named
    exact keyed
  | some t => exact keyed_of_cast keyed named

theorem Edit.keyed_run {world : World} {w : Workspace} {code : Code} {evaluated : Evaluated}
    (stored : w.store.Keyed) (constants : code.Keyed)
    (run : (Edit.run world code).result w = .ok evaluated) : evaluated.Keyed := by
  rw [result_run] at run
  obtain ⟨operand, executed, rfl⟩ := map_eq_ok.mp run
  have keyed := Code.keyed_execute (stored.context world) constants executed
  intro slot member
  rw [Operand.values_drain] at member
  exact keyed slot member

theorem Selectors.keyed_ofAccessor {world : World} {w : Workspace} {a : Accessor}
    {selectors : Selectors} (stored : w.store.Keyed) (constants : ∀ code ∈ a.codes, code.Keyed)
    (run : (Selectors.ofAccessor world a).result w = .ok selectors) : selectors.Keyed := by
  have ofIndex {make : Slot → Selector} (same : ∀ slot, (make slot).index? = slot)
      {evaluated : Evaluated} (keyed : evaluated.Keyed) :
      (Selectors.ofIndex make evaluated).Keyed := by
    intro selector member
    cases evaluated with
    | single slot =>
      cases List.mem_singleton.mp member
      rw [same]
      exact keyed slot (by simp [Evaluated.values])
    | many slots =>
      obtain ⟨slot, inside, rfl⟩ := List.mem_map.mp member
      rw [same]
      exact keyed slot inside
  have unindexed {selector : Selector} (none : selector.index? = none) :
      (Selectors.one selector).Keyed := by
    intro other member
    cases List.mem_singleton.mp member
    rw [none]
    exact slotKeyed_none
  cases a with
  | allContents | entryKey | entryValue =>
    cases run
    exact unindexed rfl
  | index code =>
    rw [result_index] at run
    obtain ⟨evaluated, ran, rfl⟩ := map_eq_ok.mp run
    exact ofIndex (fun _ => rfl) (keyed_run stored (constants code (by simp [Accessor.codes])) ran)
  | optionalIndex code =>
    rw [result_optionalIndex] at run
    obtain ⟨evaluated, ran, rfl⟩ := map_eq_ok.mp run
    exact ofIndex (fun _ => rfl) (keyed_run stored (constants code (by simp [Accessor.codes])) ran)
  | range first last =>
    rw [result_range] at run
    obtain ⟨first, -, run⟩ := bind_eq_ok.mp run
    obtain ⟨low, -, run⟩ := bind_eq_ok.mp run
    obtain ⟨last, -, run⟩ := bind_eq_ok.mp run
    obtain ⟨high, -, run⟩ := bind_eq_ok.mp run
    cases run
    exact unindexed rfl

namespace Targets

theorem Selected.keyed {creating : Bool} {root : Slot} {pair : Location × Selector}
    {location : Location} (selected : Selected creating root pair location)
    (rootKeyed : SlotKeyed root) (front : pair.1.Keyed) (index : SlotKeyed pair.2.index?) :
    location.Keyed := by
  cases selected with
  | @step front parent selector steps isStream step there selected member =>
    intro other inside
    rcases List.mem_append.mp inside with before | last
    · exact front other before
    · rw [List.mem_singleton.mp last]
      cases step with
      | mapKey key =>
        obtain ⟨keyTy, valueTy, pairs, rfl, ⟨slot, inMap⟩ | ⟨v, given, named⟩⟩ :=
          spelled_of_selected selected member
        · have pairsKeyed := keyed_map_iff.mp (keyed_at? rootKeyed there _ rfl)
          exact pairsKeyed.keys _ inMap
        · exact keyed_mapKey (index v given) named
      | _ => trivial

theorem keyed_of_follow {world : World} {creating : Bool} {root : Slot} {targets reached : Targets}
    {accessors : List Accessor} {w : Workspace} (stored : w.store.Keyed) (rootKeyed : SlotKeyed root)
    (constants : ∀ a ∈ accessors, ∀ code ∈ a.codes, code.Keyed)
    (keyed : ∀ location ∈ targets.locations, location.Keyed)
    (run : (follow world creating root targets accessors).result w = .ok reached) :
    ∀ location ∈ reached.locations, location.Keyed := by
  induction accessors generalizing world targets with
  | nil =>
    cases run
    exact keyed
  | cons a rest ih =>
    rw [result_follow_cons] at run
    obtain ⟨selectors, chosen, stepped⟩ := bind_eq_ok.mp run
    obtain ⟨middle, step, others⟩ := bind_eq_ok.mp stepped
    have indices := Selectors.keyed_ofAccessor stored (constants a List.mem_cons_self) chosen
    refine ih (fun b member => constants b (List.mem_cons_of_mem _ member)) ?_ others
    intro location member
    rcases mem_of_stepFrom step location member with impossible | ⟨pair, inside, selected⟩
    · cases impossible
    · obtain ⟨before, chosen⟩ := pairUp_mem inside
      exact selected.keyed rootKeyed (keyed pair.1 before) (indices pair.2 chosen)

end Targets

/-- Maps in the keys that a path names keep their keys apart. -/
theorem Path.keyed_of_resolve {world : World} {creating : Bool} {p : Path} {w : Workspace}
    {targets : Targets} (stored : w.store.Keyed) (constants : p.Keyed)
    (run : (p.resolve world creating).result w = .ok targets) :
    ∀ location ∈ targets.locations, location.Keyed := by
  rw [result_resolve] at run
  obtain ⟨t, peeked, followed⟩ := bind_eq_ok.mp run
  have root := stored _ t (Store.peek_eq_ok.mp peeked)
  have start : ∀ location ∈ ([[]] : List Location), location.Keyed := by
    intro location member
    rw [List.mem_singleton.mp member]
    exact nofun
  exact Targets.keyed_of_follow stored root constants start followed

end Immediate
