import DerCodec.Certificate
import DerCodec.Counted
import DerCodec.ExtendedValue
import DerCodec.ExtendedValue.ConfigurationType
import DerCodec.Schema.Draft
import DerCodec.Proofs.NormalForm
import DerCodec.Proofs.Delimiting
import DerCodec.Proofs.ShortestForm
import DerCodec.Proofs.Growth
import DerCodec.Proofs.TreeSize
import DerCodec.Proofs.Reencoding
import DerCodec.Proofs.BuiltCertificate
import DerCodec.Proofs.ExtensionPolicy
import DerCodec.Proofs.SchemaSlots
import DerCodec.Proofs.SchemaRoundTrip
import DerCodec.Proofs.SchemaLayout
import DerCodec.Proofs.FieldOrder
import DerCodec.Proofs.NamedBits
import DerCodec.Proofs.ExtensionReading
import DerCodec.Proofs.ExtensionRoundTrip
import DerCodec.Proofs.BuiltExtension
import DerCodec.Proofs.ExtendedValueGrammar
import DerCodec.Proofs.ExtendedValueRoundTrip
import DerCodec.Proofs.TextForms
import DerCodec.Proofs.TimeFraction
import DerCodec.Proofs.ShortestTree
import DerCodec.Proofs.CertificateLength
import DerCodec.Proofs.ElementFailure
import DerCodec.Proofs.ExtensionFailure
import DerCodec.Proofs.DecodeFailure
import DerCodec.Proofs.OctetText
import DerCodec.Proofs.OidText
import DerCodec.Proofs.OidLookup
import DerCodec.Proofs.TimeGrammar
import DerCodec.Proofs.Validity
import DerCodec.Proofs.DecodedKey
import DerCodec.Proofs.KeyIndependence
import DerCodec.Proofs.KeyAgreement
import DerCodec.Proofs.NameRoundTrip
import DerCodec.Proofs.NameText
import DerCodec.Proofs.Events
import DerCodec.Proofs.BitViews
import DerCodec.Proofs.KeyRoundTrip
import DerCodec.Proofs.Narrowing
