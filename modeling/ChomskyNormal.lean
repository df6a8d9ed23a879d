import ChomskyNormal.Grammar.Equivalence
import ChomskyNormal.Main
import ChomskyNormal.Text.NormalFormJson
import ChomskyNormal.Proofs.Saturation
import ChomskyNormal.Proofs.EpsilonFree
import ChomskyNormal.Proofs.Variants
import ChomskyNormal.Proofs.Search
import ChomskyNormal.Proofs.SearchOrder
import ChomskyNormal.Proofs.FiniteAutomata
import ChomskyNormal.Proofs.UnitFree
import ChomskyNormal.Proofs.Useful
import ChomskyNormal.Proofs.Occurrences
import ChomskyNormal.Proofs.Conservative
import ChomskyNormal.Proofs.Binary
import ChomskyNormal.Proofs.PassOrder
import ChomskyNormal.Proofs.Normalization
import ChomskyNormal.Proofs.Membership
import ChomskyNormal.Proofs.TableFilling
import ChomskyNormal.Proofs.Idempotence
import ChomskyNormal.Proofs.FixedPoints
import ChomskyNormal.Proofs.Recognition
import ChomskyNormal.Proofs.Sessions
import ChomskyNormal.Proofs.Heights
import ChomskyNormal.Proofs.LeastHeights
import ChomskyNormal.Proofs.Sentences
import ChomskyNormal.Proofs.Reading
import ChomskyNormal.Proofs.Printing
import ChomskyNormal.Proofs.RoundTrip
import ChomskyNormal.Proofs.JsonListing
import ChomskyNormal.Proofs.OrderIndependence
import ChomskyNormal.Proofs.Counting
import ChomskyNormal.Proofs.LineGrammar
import ChomskyNormal.Proofs.ShallowSentences
import ChomskyNormal.Proofs.Acceptance
import ChomskyNormal.Proofs.Layout
import ChomskyNormal.Proofs.Construction
import ChomskyNormal.Proofs.Alignment
import ChomskyNormal.Proofs.Workups
import ChomskyNormal.Proofs.Requests
