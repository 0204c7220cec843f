import ToolBindings.Proofs.Arena

/-!
# What recording leaves in the arena

A tree is recorded if the arena after holds it and begins with the arena before. The functions that
record trees do so when the trees they build on are held (`recorded_withChildren`,
`recorded_withMetadata`).
-/
namespace ToolBindings

structure Recorded (a : Arena) (t : Tree) (b : Arena) : Prop where
  extends_arena : b.Extends a
  holds : b.Holds t

variable {a b : Arena} {t : Tree}

theorem Recorded.refl (ht : a.Holds t) : Recorded a t a := ⟨.refl a, ht⟩

theorem Recorded.trans {s : Tree} {c : Arena} (hs : Recorded a s b) (ht : Recorded b t c) :
    Recorded a t c :=
  ⟨ht.extends_arena.trans hs.extends_arena, ht.holds⟩

theorem recorded_push {n : Node} (hn : t.node? = some n) (hid : t.id = a.size)
    (hc : ∀ c ∈ t.children, a.Holds c) : Recorded a t (a.push n) := by
  refine ⟨Arena.extends_push a n, hn, ?_, fun c hct => ?_⟩
  · rw [hid, Arena.get?_push, if_pos rfl]
  · exact (hc c hct).mono (Arena.extends_push a n)

namespace Tree

theorem newWrap_run (m : Option Metadata) (w : Wrapper) (c : Tree) (a : Arena) :
    newWrap m w c a = (wrap a.size m w c, a.push ⟨.wrap w c.id, m⟩) := rfl

theorem recorded_newTerminal (a : Arena) (m : Option Metadata) (u : Terminal) :
    Recorded a (newTerminal m u a).1 (newTerminal m u a).2 :=
  recorded_push rfl rfl fun _ hc => absurd hc List.not_mem_nil

theorem recorded_newWrap (m : Option Metadata) (w : Wrapper) {c : Tree} (hc : a.Holds c) :
    Recorded a (newWrap m w c a).1 (newWrap m w c a).2 :=
  recorded_push rfl rfl fun d hd => by
    rw [newWrap_run, children_wrap, List.mem_singleton] at hd
    exact hd ▸ hc

theorem recorded_newGroup (m : Option Metadata) (g : Group) {cs : List Tree}
    (hcs : ∀ c ∈ cs, a.Holds c) :
    Recorded a (newGroup m g cs a).1 (newGroup m g cs a).2 :=
  recorded_push rfl rfl hcs

theorem withChildren_wrap (i : NodeId) (m : Option Metadata) (w : Wrapper) (b c : Tree)
    (cs : List Tree) (a : Arena) :
    (wrap i m w b).withChildren (c :: cs) a =
      if (c :: cs).map id = [b.id] then (wrap i m w c, a) else newWrap m w c a :=
  apply_ite (fun f : Recorder Tree => f a) _ _ _

theorem withChildren_group (i : NodeId) (m : Option Metadata) (g : Group) (bs cs : List Tree)
    (a : Arena) :
    (group i m g bs).withChildren cs a =
      if cs.map id = bs.map id then (group i m g cs, a) else newGroup m g cs a :=
  apply_ite (fun f : Recorder Tree => f a) _ _ _

theorem exists_withChildren_wrap (i : NodeId) (m : Option Metadata) (w : Wrapper) (b c : Tree)
    (a : Arena) : ∃ j, ((wrap i m w b).withChildren [c] a).1 = wrap j m w c := by
  rw [withChildren_wrap]
  split
  · exact ⟨i, rfl⟩
  · exact ⟨a.size, rfl⟩

theorem exists_withChildren_group (i : NodeId) (m : Option Metadata) (g : Group)
    (bs cs : List Tree) (a : Arena) :
    ∃ j, ((group i m g bs).withChildren cs a).1 = group j m g cs := by
  rw [withChildren_group]
  split
  · exact ⟨i, rfl⟩
  · exact ⟨a.size, rfl⟩

theorem withChildren_children (t : Tree) (a : Arena) : t.withChildren t.children a = (t, a) := by
  cases t with
  | missing | terminal => rfl
  | wrap i m w c =>
    rw [children_wrap, withChildren_wrap, if_pos (by simp)]
  | group i m g cs =>
    rw [children_group, withChildren_group, if_pos rfl]

theorem recorded_withChildren (ht : a.Holds t) {cs : List Tree} (hcs : ∀ c ∈ cs, a.Holds c) :
    Recorded a (t.withChildren cs a).1 (t.withChildren cs a).2 := by
  cases t with
  | missing | terminal => exact .refl ht
  | wrap i m w b =>
    cases cs with
    | nil => exact .refl ht
    | cons c cs =>
      rw [withChildren_wrap]
      split
      · next hid =>
        obtain ⟨n, hn, hg⟩ := ht.get?
        cases hn
        have hcb : c.id = b.id := (List.cons.inj hid).1
        refine .refl ⟨rfl, ?_, fun d hd => ?_⟩
        · rw [hcb]
          exact hg
        · exact List.mem_singleton.1 hd ▸ hcs c List.mem_cons_self
      · exact recorded_newWrap m w (hcs c List.mem_cons_self)
  | group i m g bs =>
    rw [withChildren_group]
    split
    · next hid =>
      obtain ⟨n, hn, hg⟩ := ht.get?
      cases hn
      refine .refl ⟨rfl, ?_, hcs⟩
      rw [hid]
      exact hg
    · exact recorded_newGroup m g hcs

theorem recorded_withMetadata (ht : a.Holds t) (m : Option Metadata) :
    Recorded a (t.withMetadata m a).1 (t.withMetadata m a).2 := by
  unfold withMetadata
  split
  · exact .refl ht
  · cases t with
    | missing => exact .refl ht
    | terminal i n u => exact recorded_newTerminal a m u
    | wrap i n w c => exact recorded_newWrap m w (ht.children c (List.mem_singleton.2 rfl))
    | group i n g cs => exact recorded_newGroup m g ht.children

end Tree
end ToolBindings
