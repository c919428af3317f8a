import SchemaPack.Proofs.Library.Closure

/-!
Records that contain themselves directly. A codec that was there before its holder is no way round
in a circle, so a direct cycle passes through an edge that was deferred though it is direct. Such an
edge is given where the session came back to a type through an indirect edge, and nothing asks
whether a direct way leads round as well.
-/
namespace SchemaPack

open Relation (ReflTransGen TransGen)

variable {c : Catalog}

namespace Ty

theorem Direct.sizeOf_lt {items : List Ty} {t : Ty} (h : Direct c (.tuple items) t) :
    sizeOf t < sizeOf (Ty.tuple items) := by
  cases h with
  | item hitem =>
    have := List.sizeOf_lt_of_mem hitem
    simp only [tuple.sizeOf_spec]
    omega

/-- A direct way inwards passes a record, or leads to a smaller type. -/
theorem Contains.record_or_lt {a b : Ty} (h : Contains c a b) :
    (∃ name, ReflTransGen (Direct c) a (.record name) ∧ Contains c (.record name) b) ∨
      sizeOf b < sizeOf a := by
  induction h with
  | single hstep =>
    cases hstep with
    | item hitem => exact Or.inr (Direct.item (c := c) hitem).sizeOf_lt
    | field hfind hfield => exact Or.inl ⟨_, .refl, .single (.field hfind hfield)⟩
  | @tail b d hway hstep ih =>
    rcases ih with ⟨name, hto, hfrom⟩ | hlt
    · exact Or.inl ⟨name, hto, hfrom.tail hstep⟩
    · cases hstep with
      | item hitem =>
        have := (Direct.item (c := c) hitem).sizeOf_lt
        exact Or.inr (by omega)
      | field hfind hfield =>
        exact Or.inl ⟨_, hway.to_reflTransGen, .single (.field hfind hfield)⟩

/-- A record lies on every direct cycle, since tuples end. -/
theorem Contains.exists_record {a : Ty} (h : Contains c a a) :
    ∃ name, ReflTransGen (Direct c) a (.record name) ∧
      Contains c (.record name) (.record name) := by
  rcases h.record_or_lt with ⟨name, hto, hfrom⟩ | hlt
  · exact ⟨name, hto, hfrom.trans_left hto⟩
  · exact absurd hlt (Nat.lt_irrefl _)

theorem reaches_of_direct {a b : Ty} (h : ReflTransGen (Direct c) a b) : Reaches c a b := by
  induction h with
  | refl => exact .refl a
  | tail _ hstep ih => exact ih.trans hstep.part.reaches

end Ty

namespace Library

variable {lib : Library}

def rank (lib : Library) (t : Ty) : Nat := lib.codecs.findIdx (·.type == t)

theorem rank_lt_length {earlier rest : List CompiledCodec} (hsplit : lib.codecs = earlier ++ rest)
    {d : CompiledCodec} (hd : d ∈ earlier) : lib.rank d.type < earlier.length := by
  have hlt : earlier.findIdx (·.type == d.type) < earlier.length :=
    List.findIdx_lt_length.mpr ⟨d, hd, beq_self_eq_true d.type⟩
  rw [rank, hsplit, List.findIdx_append, if_pos hlt]
  exact hlt

theorem length_le_rank {earlier rest : List CompiledCodec} (hsplit : lib.codecs = earlier ++ rest)
    {t : Ty} (hearlier : ∀ d ∈ earlier, d.type ≠ t) : earlier.length ≤ lib.rank t := by
  have hnone : ¬ earlier.findIdx (·.type == t) < earlier.length := by
    rw [List.findIdx_lt_length]
    rintro ⟨d, hd, htype⟩
    exact hearlier d hd (beq_iff_eq.mp htype)
  rw [rank, hsplit, List.findIdx_append, if_neg hnone]
  omega

/-- A direct part has its codec in an earlier place, unless the edge to it was deferred. -/
theorem Faithful.rank_lt_or_deferred (h : lib.Faithful c) {t u : Ty} (ht : lib.contains t = true)
    (hdirect : Ty.Direct c t u) :
    lib.rank u < lib.rank t ∨ ∃ x ∈ lib.codecs, x.type = t ∧
      ∃ e ∈ x.writer.edges, e.type = u ∧ e.link = .deferred := by
  obtain ⟨y, hy, hytype⟩ := Compile.contains_iff.mp ht
  have hsome : (lib.codecs.find? (·.type == t)).isSome = true :=
    List.find?_isSome.mpr ⟨y, hy, beq_iff_eq.mpr hytype⟩
  obtain ⟨x, hfind⟩ := Option.isSome_iff_exists.mp hsome
  obtain ⟨hxtype, earlier, later, hsplit, hearlier⟩ := List.find?_eq_some_iff_append.mp hfind
  obtain rfl : x.type = t := beq_iff_eq.mp hxtype
  have hx : x ∈ lib.codecs := by
    rw [hsplit]
    exact List.mem_append_right _ List.mem_cons_self
  obtain ⟨e, he, rfl⟩ := (h.writer x hx).edge_of_direct hdirect
  rcases h.layered earlier x later hsplit e (List.mem_append_left _ he) with
    ⟨-, d, hd, hdtype⟩ | ⟨hdeferred, -⟩
  · left
    have hpart := rank_lt_length hsplit hd
    have hwhole := length_le_rank hsplit fun d hd => by simpa using hearlier d hd
    rw [hdtype] at hpart
    omega
  · exact Or.inr ⟨x, hx, rfl, e, he, rfl, hdeferred⟩

/-- A type whose codec is published, if it holds another directly. -/
theorem Faithful.contains_of_direct (h : lib.Faithful c) {root t u : Ty}
    (hroot : lib.contains root = true) (hreaches : Ty.Reaches c root t)
    (hdirect : Ty.Direct c t u) : lib.contains t = true := by
  rcases h.covers_reaches hroot hreaches with hpublished | ⟨alternatives, rfl, -⟩
  · exact hpublished
  · cases hdirect

/-- A direct edge that was deferred closes a direct cycle. -/
def ClosesCycle (c : Catalog) (lib : Library) (root : Ty) : Prop :=
  ∃ x ∈ lib.codecs, Ty.Reaches c root x.type ∧
    ∃ e ∈ x.writer.edges, e.link = .deferred ∧ Ty.Direct c x.type e.type ∧
      ReflTransGen (Ty.Direct c) e.type x.type

/-- Where no deferred direct edge closes a cycle, direct ways round lead to ever earlier places. -/
theorem Faithful.rank_lt_of_contains (h : lib.Faithful c) {root : Ty}
    (hroot : lib.contains root = true) (hopen : ¬ lib.ClosesCycle c root) {t u : Ty}
    (hreaches : Ty.Reaches c root t) (hcontains : Ty.Contains c t u)
    (hback : ReflTransGen (Ty.Direct c) u t) : lib.rank u < lib.rank t := by
  -- a deferred edge would close a cycle, since there is a way back, so every edge here is ready
  have hstep : ∀ {a b : Ty}, Ty.Reaches c root a → Ty.Direct c a b →
      ReflTransGen (Ty.Direct c) b a → lib.rank b < lib.rank a := by
    intro a b ha hdirect hround
    rcases h.rank_lt_or_deferred (h.contains_of_direct hroot ha hdirect) hdirect with
      hlt | ⟨x, hx, rfl, e, he, rfl, hdeferred⟩
    · exact hlt
    · exact absurd ⟨x, hx, ha, e, he, hdeferred, hdirect, hround⟩ hopen
  induction hcontains with
  | single hdirect => exact hstep hreaches hdirect hback
  | @tail a b hway hdirect ih =>
    have hlt := ih (hback.head hdirect)
    have hround : ReflTransGen (Ty.Direct c) b a := hback.trans hway.to_reflTransGen
    exact Nat.lt_trans (hstep (hreaches.trans (Ty.Contains.reaches hway)) hdirect hround) hlt

/-- Some record contains itself directly exactly where a deferred direct edge closes a cycle. -/
theorem Faithful.exists_cycle_iff (h : lib.Faithful c) {root : Ty}
    (hroot : lib.contains root = true) :
    (∃ name, Ty.Reaches c root (.record name) ∧ Ty.Contains c (.record name) (.record name)) ↔
      lib.ClosesCycle c root := by
  constructor
  · rintro ⟨name, hreaches, hcycle⟩
    by_contra hopen
    have hlt := h.rank_lt_of_contains hroot hopen hreaches hcycle .refl
    exact Nat.lt_irrefl _ hlt
  · rintro ⟨x, hx, hreaches, e, he, -, hdirect, hround⟩
    obtain ⟨name, hto, hcycle⟩ :=
      Ty.Contains.exists_record (TransGen.head' hdirect hround)
    exact ⟨name, hreaches.trans (Ty.reaches_of_direct hto), hcycle⟩

end Library

namespace Context

/-- A type that is served reaches no record that contains itself directly, if and only if none of
the direct edges that were deferred on the way closes a direct cycle. -/
theorem no_direct_cycle_iff {catalog : Catalog} {config : Config} {history : List (Ty × Policy)}
    {type : Ty} {policy : Policy} {h : Handle}
    (hserved : (((fresh catalog config).after history).request type policy).1 = .ok h) :
    (∀ name, Ty.Reaches catalog type (.record name) →
        ¬ Ty.Contains catalog (.record name) (.record name)) ↔
      ¬ h.library.ClosesCycle catalog type := by
  obtain ⟨hfaithful, hcodec, htype, -, -⟩ := faithful_of_request hserved
  have hpublished : h.library.contains type = true :=
    Compile.contains_iff.mpr ⟨h.codec, hcodec, htype⟩
  rw [← hfaithful.exists_cycle_iff hpublished]
  simp only [not_exists, not_and]

def grid : Catalog where
  records :=
    [⟨⟨"Node"⟩, [⟨"all", .list (.record ⟨"Cell"⟩), none⟩, ⟨"first", .record ⟨"Cell"⟩, none⟩]⟩,
      ⟨⟨"Cell"⟩, [⟨"owner", .record ⟨"Node"⟩, none⟩]⟩]

theorem grid_contains :
    Ty.Contains grid (.record ⟨"Node"⟩) (.record ⟨"Node"⟩) := by
  have hfirst : Ty.Direct grid (.record ⟨"Node"⟩) (.record ⟨"Cell"⟩) :=
    .field (f := ⟨"first", .record ⟨"Cell"⟩, none⟩) (r := ⟨⟨"Node"⟩, _⟩) rfl (by simp)
  have howner : Ty.Direct grid (.record ⟨"Cell"⟩) (.record ⟨"Node"⟩) :=
    .field (f := ⟨"owner", .record ⟨"Node"⟩, none⟩) rfl (by simp)
  exact .tail (.single hfirst) howner

theorem grid_is_served :
    ∃ h, (((fresh grid {}).after []).request (.record ⟨"Node"⟩) .throw).1 = .ok h :=
  exists_handle (by decide)

/-- The cell is compiled for the list, where its owner may be deferred; when the node asks for it
directly it is finished, and nothing is checked. -/
theorem direct_cycle_is_served :
    ∃ h, (((fresh grid {}).after []).request (.record ⟨"Node"⟩) .throw).1 = .ok h ∧
      Ty.Reaches grid (.record ⟨"Node"⟩) (.record ⟨"Node"⟩) ∧
        Ty.Contains grid (.record ⟨"Node"⟩) (.record ⟨"Node"⟩) := by
  obtain ⟨h, hserved⟩ := grid_is_served
  exact ⟨h, hserved, .refl _, grid_contains⟩

/-- The edge from the cell to its owner is the one that closes the cycle. -/
theorem grid_closes_cycle :
    ∃ h, (((fresh grid {}).after []).request (.record ⟨"Node"⟩) .throw).1 = .ok h ∧
      h.library.ClosesCycle grid (.record ⟨"Node"⟩) := by
  obtain ⟨h, hserved⟩ := grid_is_served
  refine ⟨h, hserved, ?_⟩
  by_contra hopen
  exact (no_direct_cycle_iff hserved).mpr hopen ⟨"Node"⟩ (.refl _) grid_contains

end Context

end SchemaPack
