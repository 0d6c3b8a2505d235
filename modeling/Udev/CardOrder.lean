import Udev.Enumerate

/-! The control node of a sound card in the list of an enumeration. Only one node is held
back at a time, so a control node that comes right behind another card is listed as it
comes. -/
namespace Udev
namespace CardOrder

open CString HoldBack Enumerate

open scoped List

/-- Each control node comes after the other listed devices of its card. -/
def ControlLast (list : List CString) : Prop :=
  ∀ dir c d, ControlNode dir c → c ∈ list → d ∈ list → d ≠ c → dir ++ str "/" <+: d → [d,c] <+ list

/-- The path is held back: of those that come right behind the devices of the one before,
every other one. -/
def HeldBack (devices : List CString) (c : CString) : Prop := Turn mayHold stays (InPlace devices) true c

def Before (devices : List CString) (d c : CString) : Prop :=
  if devicesDelayEnd d then devicesDelayEnd c ∧ d < c
  else devicesDelayEnd c ∨ c < d ∧ HeldBack devices c ∨ d < c ∧ ¬(HeldBack devices d ∧ stays d c)

/-- A control node that other devices of its card follow is held back, and no other node of
its card is held back behind it. -/
def CardsApart (devices : List CString) : Prop :=
  ∀ dir c d, ControlNode dir c → c ∈ devices → d ∈ devices → d ≠ c → dir ++ str "/" <+: d → Before devices d c

theorem take_eq_of_shared {pre c d : CString} {k : ℕ} (hc : pre <+: c) (hd : pre <+: d) (hk : k ≤ pre.length) :
    d.take k = c.take k := by
  obtain ⟨s,rfl⟩ := hc
  obtain ⟨t,rfl⟩ := hd
  rw [List.take_append_of_le_length hk,List.take_append_of_le_length hk]

theorem stays_of_card {dir c d : CString} (hc : ControlNode dir c) (hd : dir ++ str "/" <+: d) (hmay : mayHold c = true) :
    stays c d = true := by
  obtain ⟨dir',-,hlen,hmin⟩ := devicesDelayLater_spec (of_decide_eq_true hmay)
  obtain ⟨hcard,rest,rfl⟩ := hc
  have hle := hmin dir (str "controlC" ++ rest) hcard (List.append_assoc _ _ _)
  have hpre : dir ++ str "/" <+: dir ++ str "/controlC" ++ rest := by
    rw [List.append_assoc]
    exact (List.prefix_append_right_inj _).mpr ⟨str "controlC" ++ rest,rfl⟩
  refine decide_eq_true (take_eq_of_shared hpre hd ?_)
  rw [hlen,List.length_append]
  exact Nat.succ_le_succ hle

theorem before_iff {list devices : List CString} (h : Arranged list devices) {dir c d : CString}
    (hc : ControlNode dir c) (hcmem : c ∈ devices) (hdmem : d ∈ devices) (hne : d ≠ c) (hd : dir ++ str "/" <+: d) :
    [d,c] <+ list ↔ Before devices d c := by
  have hasymm : [c,d] <+ list → ¬[d,c] <+ list := pair_sublist_asymm h.nodup.1
  have hlt : d < c ∧ ¬c < d ∨ c < d ∧ ¬d < c := by
    rcases Std.lt_trichotomy d c with hlt | heq | hlt
    · exact Or.inl ⟨hlt,Std.not_gt_of_lt hlt⟩
    · exact absurd heq hne
    · exact Or.inr ⟨hlt,Std.not_gt_of_lt hlt⟩
  cases hdend : devicesDelayEnd d with
  | true =>
    rw [Before,if_pos hdend]
    cases hcend : devicesDelayEnd c with
    | true =>
      rcases hlt with ⟨hlt,-⟩ | ⟨hlt,hngt⟩
      · exact iff_of_true (h.order_both_delayed hdmem hcmem hlt hdend hcend) ⟨rfl,hlt⟩
      · exact iff_of_false (hasymm (h.order_both_delayed hcmem hdmem hlt hcend hdend)) fun hb => hngt hb.2
    | false => exact iff_of_false (hasymm (h.order_delayed hcmem hdmem hcend hdend)) fun hb => by cases hb.1
  | false =>
    rw [Before,if_neg (by simp [hdend])]
    cases hcend : devicesDelayEnd c with
    | true => exact iff_of_true (h.order_delayed hdmem hcmem hdend hcend) (Or.inl rfl)
    | false =>
      simp only [Bool.false_eq_true,false_or]
      rcases hlt with ⟨hlt,hngt⟩ | ⟨hlt,hngt⟩
      · obtain ⟨hmoved,hkept⟩ := h.order hdmem hcmem hlt hdend hcend
        simp only [hlt,hngt,true_and,false_and,false_or]
        exact ⟨fun hb hm => hasymm (hmoved hm) hb,hkept⟩
      · obtain ⟨hmoved,hkept⟩ := h.order hcmem hdmem hlt hcend hdend
        simp only [hlt,hngt,true_and,false_and,or_false]
        constructor
        · intro hb
          by_contra hheld
          exact hasymm (hkept fun hm => hheld hm.1) hb
        · intro hheld
          have hmay : mayHold c = true := by
            cases hheld with
            | held _ hmay _ => exact hmay
          exact hmoved ⟨hheld,stays_of_card hc hd hmay⟩

/-- In the list of any enumeration the control nodes come last in their cards if and only if
those that other devices of the card follow are held back. -/
theorem control_last_iff (realloc : ℕ → ℕ → ℕ) (ops : List Op) :
    ∃ e, Runs.run (step realloc) udevEnumerateNew (ops ++ [.getListEntry]) = some e ∧
      (ControlLast e.devicesList ↔ CardsApart (added ops)) := by
  obtain ⟨e,hrun,harranged⟩ := run_arranged realloc ops
  refine ⟨e,hrun,?_⟩
  simp only [ControlLast,CardsApart,harranged.nodup.2]
  constructor
  · intro h dir c d hc hcmem hdmem hne hd
    exact (before_iff harranged hc hcmem hdmem hne hd).mp (h dir c d hc hcmem hdmem hne hd)
  · intro h dir c d hc hcmem hdmem hne hd
    exact (before_iff harranged hc hcmem hdmem hne hd).mpr (h dir c d hc hcmem hdmem hne hd)

/-- The nodes of a card and of the card behind it, without the directories of the cards. -/
theorem control_not_last :
    ∃ e, Runs.run (step fun base size => base+size) udevEnumerateNew
        [.addSyspath (str "/sys/devices/b/sound/card1/pcmC1D0p"),.addSyspath (str "/sys/devices/b/sound/card1/controlC1"),
          .addSyspath (str "/sys/devices/a/sound/card0/controlC0"),.addSyspath (str "/sys/devices/a/sound/card0/pcmC0D0p"),
          .getListEntry] = some e ∧
      e.devicesList = [str "/sys/devices/a/sound/card0/pcmC0D0p",str "/sys/devices/a/sound/card0/controlC0",
        str "/sys/devices/b/sound/card1/controlC1",str "/sys/devices/b/sound/card1/pcmC1D0p"] ∧
      ¬ControlLast e.devicesList := by
  have hrun : (Runs.run (step fun base size => base+size) udevEnumerateNew
        [.addSyspath (str "/sys/devices/b/sound/card1/pcmC1D0p"),.addSyspath (str "/sys/devices/b/sound/card1/controlC1"),
          .addSyspath (str "/sys/devices/a/sound/card0/controlC0"),.addSyspath (str "/sys/devices/a/sound/card0/pcmC0D0p"),
          .getListEntry]).map (·.devicesList) =
      some [str "/sys/devices/a/sound/card0/pcmC0D0p",str "/sys/devices/a/sound/card0/controlC0",
        str "/sys/devices/b/sound/card1/controlC1",str "/sys/devices/b/sound/card1/pcmC1D0p"] := by decide +kernel
  obtain ⟨e,he,hlist⟩ := Option.map_eq_some_iff.mp hrun
  refine ⟨e,he,hlist,?_⟩
  intro hlast
  have hcard : ControlNode (str "/sys/devices/b/sound/card1") (str "/sys/devices/b/sound/card1/controlC1") :=
    ⟨⟨str "/sys/devices/b",str "1",by decide,by decide⟩,by decide⟩
  have hsub := hlast _ _ (str "/sys/devices/b/sound/card1/pcmC1D0p") hcard (by rw [hlist]; decide)
    (by rw [hlist]; decide) (by decide) (by decide)
  rw [hlist] at hsub
  revert hsub
  decide

end CardOrder
end Udev
