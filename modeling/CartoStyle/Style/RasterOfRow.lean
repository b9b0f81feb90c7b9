import CartoStyle.Style.OfRow

/-!
Raster symbolizers of rows. The channels are one, three, or left to the
renderer; the contrast properties have one value for all channels or, with
three channels, one for each.
-/

namespace CartoStyle.Style

def colorMapKey : String := "raster-color-map"

def enhancementKey : String := "raster-contrast-enhancement"

def gammaKey : String := "raster-gamma"

/-- The entry of a colour map in a call with a colour, a quantity, and then perhaps a label
and an opacity. -/
def ColorMapEntry.ofText (text : String) : Except Error ColorMapEntry := do
  let fault {α : Type} (f : ValueFault) : Except Error α := .error (.value colorMapKey text f)
  let .apply (.other "color-map-entry") args ← PropertyValue.parse colorMapKey text
    | fault .colorMapEntry
  match args with
  | color :: quantity :: more =>
    if more.length > 2 then throw (.arity colorMapKey "2 to 4" args.length)
    let some color := colorOf? color | fault .colour
    let some quantity := quantity.read.asNumber? | fault .quantity
    let label := more.head?.bind (·.read.toText?)
    let opacity ← match more[1]? with
      | none => pure none
      | some e => match e.read.asNumber? with
        | some x => pure (some x)
        | none => fault .entryOpacity
    return { color, quantity := some quantity, label, opacity }
  | _ => throw (.arity colorMapKey "2 to 4" args.length)

def colorMapKind (i : Instance) : Except Error (Option ColorMapKind) := do
  let key := "raster-color-map-type"
  match ← i.text key with
  | none => return none
  | some name =>
    match ColorMapKind.ofName? name with
    | some kind => return some kind
    | none => throw (.value key name .colorMapType)

def entriesOf (text : String) : Except Error (List ColorMapEntry) :=
  (Text.splitTopLevel ',' text).mapM fun item => ColorMapEntry.ofText (Text.trim item)

def ColorMap.ofInstance (i : Instance) : Except Error (Option ColorMap) := do
  let kind ← colorMapKind i
  let entries ← (i.raw? colorMapKey).mapM entriesOf
  return if kind.isNone && entries.isNone then none else some { kind, entries }

/-- The names of the channels in some values. The single word auto names none. -/
def channelNames : List Value → List String
  | [.text word] => if word.toLower == "auto" then [] else [word]
  | values => values.map fun v => v.toText?.getD ""

def enhancementsOf : Option Expression → Except Error (List Enhancement)
  | none => .ok []
  | some e => e.read.toList.mapM fun v =>
    match v.asText?.bind Enhancement.ofName? with
    | some enhancement => .ok enhancement
    | none => .error (.value enhancementKey e.valueText .enhancement)

/-- A contrast property has no value, one, or with three channels one for each. -/
def checkCount (channels : Nat) (key : String) (found : Nat) : Except Error Unit :=
  if found ≤ 1 || (channels == 3 && found == 3) then .ok ()
  else .error (.arity key (if channels == 3 then "1 or 3" else "1") found)

def forChannel? {α : Type} (values : List α) (channel : Nat) : Option α :=
  match values with
  | [single] => some single
  | several => several[channel]?

/-- The contrast of a channel; absent if nothing is said about it. -/
def contrastAt (enhancements : List Enhancement) (gammas : List Float) (channel : Nat) :
    Option Contrast :=
  let contrast : Contrast :=
    { enhancement := forChannel? enhancements channel, gamma := forChannel? gammas channel }
  if contrast.isEmpty then none else some contrast

def Raster.ofInstance (i : Instance) : Except Error Raster := do
  let opacity ← i.number "raster-opacity"
  let colorMap ← ColorMap.ofInstance i
  let channels ← i.expression "raster-channels"
  let names := channelNames ((channels.map (·.read.toList)).getD [])
  if names.length == 2 || names.length > 3 then
    throw (.arity "raster-channels" "1 or 3" names.length)
  let enhancements ← enhancementsOf (← i.expression enhancementKey)
  let gammas := (← i.numbers gammaKey).getD []
  checkCount names.length enhancementKey enhancements.length
  checkCount names.length gammaKey gammas.length
  let contrast := contrastAt enhancements gammas
  match names with
  | [red, green, blue] =>
    let channels := Channels.rgb ⟨some red, contrast 0⟩ ⟨some green, contrast 1⟩
      ⟨some blue, contrast 2⟩
    return { opacity, colorMap, channels := some channels }
  | [gray] => return { opacity, colorMap, channels := some (.gray ⟨some gray, contrast 0⟩) }
  | _ => return { opacity, colorMap, contrast := contrast 0 }

end CartoStyle.Style
